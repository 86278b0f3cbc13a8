import RPCortex.Edit.Buffer
import RPCortex.Lib.Text

/-! What `ed_load` leaves in the buffer. -/

namespace RPCortex.Edit

open Lib

variable {room : Nat → Bool} {l : Load} {p : List UInt8} {c : UInt8} {ls : LineStore}

/-- The text of a file: it without its carriage returns. -/
def text (p : List UInt8) : List UInt8 := p.filter (· ≠ 0x0D)

/-- The buffer begins with the line. -/
def Begins (row : Row) (line : List UInt8) : Prop := ∀ i < line.length, row i = line.getD i 0

/-- The line is in the buffer, with a zero behind it. -/
def Spells (row : Row) (line : List UInt8) : Prop := Begins row line ∧ row line.length = 0

/-- Every line is in the buffer, at its place. -/
def Holds (ls : LineStore) (lines : List (List UInt8)) : Prop := ∀ j < lines.length, Spells (ls.row j) (lines.getD j [])

/-- The text does not fit: too many lines, a chunk that is refused, or a line that is too long. -/
def Over (room : Nat → Bool) (p : List UInt8) : Prop :=
  edMaxLines ≤ (text p).count 0x0A ∨
  (∃ j < edMaxLines, j ≤ (text p).count 0x0A ∧ room (j / lsLinesPerChunk) = false) ∨
  ∃ line, line <:+: text p ∧ 0x0A ∉ line ∧ edMaxCol ≤ line.length

/-- The load stopped early, or cut a line. -/
def Load.marked (l : Load) : Bool := l.oom || l.truncated || edMaxLines ≤ l.row

/-- What was read is in the buffer: whole lines and the beginning of the last one. -/
structure Loads (room : Nat → Bool) (p : List UInt8) (l : Load) (lines : List (List UInt8)) (last : List UInt8) :
    Prop where
  said : text p = unlines 0x0A lines ++ last
  plain : ∀ line ∈ lines ++ [last], 0x0A ∉ line ∧ line.length < edMaxCol
  row : l.row = lines.length
  col : l.col = last.length
  held : Holds l.ls lines
  begun : Begins (l.ls.row l.row) last
  there : ∀ j ≤ l.row, l.ls.chunk (j / lsLinesPerChunk) = true
  had : ∀ c, l.ls.chunk c = true → room c = true
  fits : l.row < edMaxLines
  whole : l.oom = false ∧ l.truncated = false

theorem text_snoc : text (p ++ [c]) = if c = 0x0D then text p else text p ++ [c] := by
  by_cases cr : c = 0x0D
  · rw [if_pos cr, text, List.filter_append, cr]
    exact List.append_nil _
  · rw [if_neg cr, text, List.filter_append]
    simp [text, cr]

theorem count_unlines {nl : UInt8} (lines : List (List UInt8)) (h : ∀ line ∈ lines, nl ∉ line) :
    (unlines nl lines).count nl = lines.length := by
  induction lines with
  | nil => rfl
  | cons line lines ih =>
    rw [unlines_cons, List.count_append, List.count_eq_zero.mpr (h line List.mem_cons_self), List.count_cons_self,
      ih fun line mem => h line (List.mem_cons_of_mem _ mem), List.length_cons, Nat.zero_add]

theorem unlines_snoc {nl : UInt8} (lines : List (List UInt8)) (line : List UInt8) :
    unlines nl (lines ++ [line]) = unlines nl lines ++ line ++ [nl] := by
  simp [unlines]

/-! ### Marked loads stay marked, and text that does not fit does not with more -/

theorem marked_byte (marked : l.marked = true) : (l.byte room c).marked = true := by
  unfold Load.byte
  split
  · exact marked
  rename_i on
  have on : l.oom = false ∧ l.row < edMaxLines := by
    simpa [Load.goesOn] using on
  have cut : l.truncated = true := by
    simp only [Load.marked, on.1, Bool.false_or, Bool.or_eq_true, decide_eq_true_eq] at marked
    rcases marked with cut | full
    · exact cut
    · exact absurd on.2 (Nat.not_lt.mpr full)
  split
  · exact marked
  split
  · simp only
    split
    · split
      · simp [Load.marked, cut]
      · simp [Load.marked]
    · simp [Load.marked, cut]
  split
  · simp [Load.marked, cut]
  · simp [Load.marked]

theorem Over.snoc (full : Over room p) : Over room (p ++ [c]) := by
  have more : text p <+: text (p ++ [c]) := by
    rw [text_snoc]
    split
    · exact List.prefix_rfl
    · exact List.prefix_append _ _
  have count := more.sublist.count_le (a := (0x0A : UInt8))
  rcases full with many | ⟨j, lt, le, refused⟩ | ⟨line, inside, plain, long⟩
  · exact Or.inl (many.trans count)
  · exact Or.inr (Or.inl ⟨j, lt, le.trans count, refused⟩)
  · exact Or.inr (Or.inr ⟨line, inside.trans more.isInfix, plain, long⟩)

/-! ### A byte -/

theorem row_put_same {i col : Nat} : (ls.put i col c).row i = upd (ls.row i) col c := upd_same

theorem row_put_ne {i j col : Nat} (ne : j ≠ i) : (ls.put i col c).row j = ls.row j := upd_ne ne

theorem Begins.push {row : Row} {line : List UInt8} (h : Begins row line) :
    Begins (upd row line.length c) (line ++ [c]) := by
  intro i lt
  rw [List.length_append, List.length_singleton] at lt
  by_cases last : i = line.length
  · rw [last, upd_same]
    simp
  · have lt : i < line.length := by omega
    rw [upd_ne last, h i lt]
    simp [List.getElem?_append_left lt]

theorem Begins.close {row : Row} {line : List UInt8} (h : Begins row line) :
    Spells (upd row line.length 0) line := by
  refine ⟨fun i lt => ?_, upd_same⟩
  rw [upd_ne (Nat.ne_of_lt lt)]
  exact h i lt

theorem begins_nil (row : Row) : Begins row [] := fun _ no => absurd no (Nat.not_lt_zero _)

theorem Holds.snoc {lines : List (List UInt8)} {line : List UInt8} (h : Holds ls lines)
    (last : Spells (ls.row lines.length) line) : Holds ls (lines ++ [line]) := by
  intro j lt
  rw [List.length_append, List.length_singleton] at lt
  by_cases is : j = lines.length
  · rw [is]
    simpa using last
  · have lt : j < lines.length := by omega
    have old := h j lt
    rw [List.getD_eq_getElem?_getD, List.getElem?_append_left lt, ← List.getD_eq_getElem?_getD]
    exact old

theorem Holds.congr {ls' : LineStore} {lines : List (List UInt8)} (h : Holds ls lines)
    (same : ∀ j < lines.length, ls'.row j = ls.row j) : Holds ls' lines := by
  intro j lt
  rw [same j lt]
  exact h j lt

/-- What a line at the growth edge changes. -/
theorem line_some {ls' : LineStore} {i : Nat} (h : ls.line i room = some ls') :
    i < edMaxLines ∧ (∀ c, ls'.chunk c = true → ls.chunk c = true ∨ room c = true) ∧
    ls'.chunk (i / lsLinesPerChunk) = true ∧ (∀ c, ls.chunk c = true → ls'.chunk c = true) ∧
    ∀ j, ls.chunk (j / lsLinesPerChunk) = true → ls'.row j = ls.row j := by
  unfold LineStore.line at h
  split at h
  · cases h
  rename_i lt
  simp only at h
  split at h
  · rename_i there
    obtain rfl := Option.some.inj h
    exact ⟨Nat.lt_of_not_le lt, fun _ => Or.inl, there, fun _ same => same, fun _ _ => rfl⟩
  · rename_i none_
    split at h
    · rename_i given
      obtain rfl := Option.some.inj h
      refine ⟨Nat.lt_of_not_le lt, fun c there => ?_, upd_same, fun c there => ?_, fun j there => ?_⟩
      · by_cases is : c = i / lsLinesPerChunk
        · rw [is]
          exact Or.inr given
        · exact Or.inl ((upd_ne is).symm.trans there)
      · show upd ls.chunk _ true c = true
        unfold upd
        split
        · rfl
        · exact there
      · refine if_neg fun same => none_ ?_
        rw [← same]
        exact there
    · cases h

theorem line_none {i : Nat} (h : ls.line i room = none) (lt : i < edMaxLines) :
    room (i / lsLinesPerChunk) = false := by
  unfold LineStore.line at h
  rw [if_neg (Nat.not_le.mpr lt)] at h
  simp only at h
  split at h
  · cases h
  · split at h
    · cases h
    · rename_i no
      exact Bool.eq_false_iff.mpr no

section

variable {lines : List (List UInt8)} {last : List UInt8} (h : Loads room p l lines last)

include h

theorem Loads.count : (text p).count 0x0A = lines.length := by
  rw [h.said, List.count_append, count_unlines lines fun line mem => (h.plain line (List.mem_append_left _ mem)).1,
    List.count_eq_zero.mpr (h.plain last (List.mem_append_right _ (List.mem_singleton_self _))).1, Nat.add_zero]

theorem Loads.goesOn : l.goesOn = true := by
  simp [Load.goesOn, h.whole.1, h.fits]

theorem Loads.byte_cr : l.byte room 0x0D = l := by
  unfold Load.byte
  rw [h.goesOn]
  rfl

/-- A newline ends the line, unless there is no place for the next one. -/
theorem Loads.byte_newline : (∃ lines' last', Loads room (p ++ [0x0A]) (l.byte room 0x0A) lines' last') ∨
    (l.byte room 0x0A).marked = true ∧ Over room (p ++ [0x0A]) := by
  have longer : text (p ++ [0x0A]) = text p ++ [0x0A] := text_snoc
  have count : (text (p ++ [0x0A])).count 0x0A = lines.length + 1 := by
    rw [longer, List.count_append, h.count]
    rfl
  have closed : Spells ((l.ls.put l.row l.col 0).row lines.length) last := by
    rw [← h.row, row_put_same, h.col]
    exact h.begun.close
  have kept : Holds (l.ls.put l.row l.col 0) (lines ++ [last]) := by
    refine (h.held.congr fun j lt => row_put_ne ?_).snoc closed
    rw [h.row]
    exact Nat.ne_of_lt lt
  by_cases fits : l.row + 1 < edMaxLines
  · cases edge : (l.ls.put l.row l.col 0).line (l.row + 1) room with
    | none =>
      have shape : l.byte room 0x0A =
          { l with ls := l.ls.put l.row l.col 0, row := l.row + 1, col := 0, oom := true } := by
        unfold Load.byte
        rw [h.goesOn]
        simp [fits, edge]
      rw [shape]
      refine Or.inr ⟨by simp [Load.marked], Or.inr (Or.inl ⟨l.row + 1, fits, ?_, line_none edge fits⟩)⟩
      rw [count, h.row]
    | some ls =>
      have shape : l.byte room 0x0A = { l with ls := ls, row := l.row + 1, col := 0 } := by
        unfold Load.byte
        rw [h.goesOn]
        simp [fits, edge]
      rw [shape]
      obtain ⟨_, given, there, old, same⟩ := line_some edge
      refine Or.inl ⟨lines ++ [last], [], ?_, fun line mem => ?_, ?_, rfl, kept.congr fun j lt => same j ?_,
        begins_nil _, fun j le => ?_, fun c chunk => ?_, fits, h.whole⟩
      · rw [longer, h.said, unlines_snoc, List.append_nil]
      · rcases List.mem_append.mp mem with before | new
        · exact h.plain line before
        · rw [List.mem_singleton.mp new]
          exact ⟨List.not_mem_nil, by decide⟩
      · rw [List.length_append, List.length_singleton]
        exact congrArg (· + 1) h.row
      · rw [List.length_append, List.length_singleton] at lt
        exact h.there j (by rw [h.row]; omega)
      · have le : j ≤ l.row + 1 := le
        by_cases next : j = l.row + 1
        · rw [next]
          exact there
        · exact old _ (h.there j (by omega))
      · rcases given c chunk with before | now
        · exact h.had c before
        · exact now
  · have shape : l.byte room 0x0A = { l with ls := l.ls.put l.row l.col 0, row := l.row + 1, col := 0 } := by
      unfold Load.byte
      rw [h.goesOn]
      simp [fits]
    rw [shape]
    refine Or.inr ⟨?_, Or.inl ?_⟩
    · simp only [Load.marked, Bool.or_eq_true, decide_eq_true_eq]
      exact Or.inr (Nat.le_of_not_lt fits)
    · rw [count, ← h.row]
      exact Nat.le_of_not_lt fits

/-- Another byte goes behind the line, unless the line is full. -/
theorem Loads.byte_other (cr : c ≠ 0x0D) (nl : c ≠ 0x0A) :
    (∃ lines' last', Loads room (p ++ [c]) (l.byte room c) lines' last') ∨
    (l.byte room c).marked = true ∧ Over room (p ++ [c]) := by
  have longer : text (p ++ [c]) = text p ++ [c] := by rw [text_snoc, if_neg cr]
  have plain : 0x0A ∉ last ++ [c] := by
    intro mem
    rcases List.mem_append.mp mem with before | new
    · exact (h.plain last (List.mem_append_right _ (List.mem_singleton_self _))).1 before
    · exact nl (List.mem_singleton.mp new).symm
  have shape : l.byte room c = if l.col + 1 < edMaxCol then
      { l with ls := l.ls.put l.row l.col c, col := l.col + 1 } else { l with truncated := true } := by
    unfold Load.byte
    rw [h.goesOn, if_neg (by decide), if_neg cr, if_neg nl]
  rw [shape]
  by_cases fits : l.col + 1 < edMaxCol
  · rw [if_pos fits]
    refine Or.inl ⟨lines, last ++ [c], ?_, fun line mem => ?_, h.row, ?_, h.held.congr fun j lt => row_put_ne ?_,
      ?_, h.there, h.had, h.fits, h.whole⟩
    · rw [longer, h.said, List.append_assoc]
    · rcases List.mem_append.mp mem with before | new
      · exact h.plain line (List.mem_append_left _ before)
      · rw [List.mem_singleton.mp new]
        refine ⟨plain, ?_⟩
        rw [List.length_append, ← h.col]
        exact fits
    · rw [List.length_append]
      exact congrArg (· + 1) h.col
    · rw [h.row]
      exact Nat.ne_of_lt lt
    · show Begins ((l.ls.put l.row l.col c).row l.row) _
      rw [row_put_same, h.col]
      exact h.begun.push
  · rw [if_neg fits]
    refine Or.inr ⟨by simp [Load.marked], Or.inr (Or.inr ⟨last ++ [c], ?_, plain, ?_⟩)⟩
    · rw [longer, h.said, List.append_assoc]
      exact (List.suffix_append _ _).isInfix
    · rw [List.length_append, ← h.col]
      exact Nat.le_of_not_lt fits

end

end RPCortex.Edit
