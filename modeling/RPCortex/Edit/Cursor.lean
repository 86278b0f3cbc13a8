import RPCortex.Edit.Complete

/-! The cursor is in the text wherever the editor uses the buffer, when no event that uses it comes behind a move
that left the text. -/

namespace RPCortex.Edit

open Lib

/-! ### The length of a line -/

section

variable {row : Row} {n i : Nat}

theorem strlen_le (zero : row n = 0) : strlen row ≤ n := by
  by_cases far : edMaxCol ≤ n
  · refine le_trans (List.takeWhile_sublist _).length_le ?_
    rw [List.length_map, List.length_range]
    exact far
  · obtain ⟨m, size⟩ := Nat.exists_eq_add_of_lt (Nat.lt_of_not_le far)
    have parts : (List.range edMaxCol).map row =
        (List.range n).map row ++ 0 :: ((List.range m).map Nat.succ).map (row ∘ (n + ·)) := by
      rw [size, Nat.add_assoc, List.range_add, List.map_append, List.map_map, List.range_succ_eq_map, List.map_cons]
      have head : (row ∘ (n + ·)) 0 = 0 := zero
      rw [head]
    rw [strlen, cstr, parts, List.takeWhile_append]
    split
    · rw [List.takeWhile_cons_of_neg (by simp), List.append_nil, List.length_map, List.length_range]
    · refine (List.takeWhile_sublist _).length_le.trans ?_
      rw [List.length_map, List.length_range]

theorem le_strlen (fits : n ≤ edMaxCol) (plain : ∀ i < n, row i ≠ 0) : n ≤ strlen row := by
  obtain ⟨m, size⟩ := Nat.exists_eq_add_of_le fits
  have front : ((List.range n).map row).takeWhile (· ≠ 0) = (List.range n).map row := by
    refine List.takeWhile_eq_self_iff.mpr fun c mem => decide_eq_true ?_
    obtain ⟨i, lt, rfl⟩ := List.mem_map.mp mem
    exact plain i (List.mem_range.mp lt)
  rw [strlen, cstr, size, List.range_add, List.map_append, List.takeWhile_append, front, if_pos rfl,
    List.length_append, List.length_map, List.length_range]
  exact Nat.le_add_right _ _

theorem at_strlen (short : strlen row < edMaxCol) : row (strlen row) = 0 := by
  by_contra some_
  have longer : strlen row + 1 ≤ strlen row := by
    refine le_strlen short fun i lt zero => ?_
    rcases Nat.lt_succ_iff_lt_or_eq.mp lt with before | is
    · exact absurd (strlen_le zero) (Nat.not_le.mpr before)
    · exact some_ (is ▸ zero)
  omega

theorem line_ne_zero (lt : i < strlen row) : row i ≠ 0 :=
  fun zero => absurd (strlen_le zero) (Nat.not_le.mpr lt)

/-- A byte is put into a line. -/
theorem strlen_insert {x : Nat} {c : UInt8} (le : x ≤ strlen row) (fits : strlen row + 1 < edMaxCol) (plain : c ≠ 0) :
    strlen (upd (memmove row (x + 1) x (strlen row - x + 1)) x c) < edMaxCol ∧
    x + 1 ≤ strlen (upd (memmove row (x + 1) x (strlen row - x + 1)) x c) := by
  constructor
  · refine lt_of_le_of_lt (strlen_le (n := strlen row + 1) ?_) fits
    rw [upd_ne (by omega), memmove, if_pos (by omega), show x + (strlen row + 1 - (x + 1)) = strlen row by omega]
    exact at_strlen (by omega)
  · refine le_strlen (by omega) fun i lt => ?_
    by_cases is : i = x
    · rw [is, upd_same]
      exact plain
    · rw [upd_ne is, memmove, if_neg (by omega)]
      exact line_ne_zero (by omega)

/-- A byte is taken out of a line. -/
theorem strlen_remove {x : Nat} (le : x + 1 ≤ strlen row) (fits : strlen row < edMaxCol) :
    strlen (memmove row x (x + 1) (strlen row - (x + 1) + 1)) < edMaxCol ∧
    x ≤ strlen (memmove row x (x + 1) (strlen row - (x + 1) + 1)) := by
  constructor
  · refine lt_of_le_of_lt (strlen_le (n := strlen row - 1) ?_) (by omega)
    rw [memmove, if_pos (by omega), show x + 1 + (strlen row - 1 - x) = strlen row by omega]
    exact at_strlen fits
  · refine le_strlen (by omega) fun i lt => ?_
    rw [memmove, if_neg (by omega)]
    exact line_ne_zero (by omega)

/-- Two lines become one. -/
theorem strlen_join {up : Row} (fits : strlen up + strlen row < edMaxCol) :
    strlen (fun i => if strlen up ≤ i ∧ i < strlen up + (strlen row + 1) then row (i - strlen up) else up i) <
      edMaxCol ∧
    strlen up ≤
      strlen (fun i => if strlen up ≤ i ∧ i < strlen up + (strlen row + 1) then row (i - strlen up) else up i) := by
  constructor
  · refine lt_of_le_of_lt (strlen_le (n := strlen up + strlen row) ?_) fits
    rw [if_pos (by omega), Nat.add_sub_cancel_left]
    exact at_strlen (by omega)
  · refine le_strlen (by omega) fun i lt => ?_
    rw [if_neg (by omega)]
    exact line_ne_zero lt

end

/-! ### The text -/

namespace Editor

variable {e : Editor}

/-- The lines in use are sound, and the cursor is among them. -/
structure Good (e : Editor) : Prop where
  neat : e.Neat
  some_ : 0 < e.count
  inside : e.InText

theorem Good.short (h : e.Good) : e.len < edMaxCol := by
  obtain ⟨low, high, _, _⟩ := h.inside
  exact (h.neat _ (by omega)).2.2

/-- The cursor goes to another place in the same text. -/
theorem Good.place (neat : e.Neat) (some_ : 0 < e.count) {cy cx : Int} (low : 0 ≤ cy) (high : cy < e.count)
    (left : 0 ≤ cx) (right : cx ≤ strlen (e.ls.row cy.toNat)) : Good { e with cy := cy, cx := cx } :=
  ⟨neat, some_, low, high, left, right⟩

/-- Another line under the cursor. -/
theorem Good.setLine (h : e.Good) {row : Row} {cx : Int} (short : strlen row < edMaxCol) (left : 0 ≤ cx)
    (right : cx ≤ strlen row) : Good { e.setLine row with cx := cx, dirty := true } := by
  obtain ⟨low, high, _, _⟩ := h.inside
  have here : (e.setLine row).ls.row e.cy.toNat = row := upd_same
  refine ⟨fun i lt => ?_, h.some_, low, high, left, ?_⟩
  · obtain ⟨inside, there, fits⟩ := h.neat i lt
    refine ⟨inside, there, ?_⟩
    by_cases is : i = e.cy.toNat
    · rw [is]
      show strlen ((e.setLine row).ls.row e.cy.toNat) < edMaxCol
      rw [here]
      exact short
    · show strlen (upd e.ls.row e.cy.toNat row i) < edMaxCol
      rw [upd_ne is]
      exact fits
  · show cx ≤ strlen ((e.setLine row).ls.row e.cy.toNat)
    rw [here]
    exact right

/-- `ed_clamp` brings the cursor back. -/
theorem edClamp_good {rows cols : Int} (neat : e.Neat) (some_ : 0 < e.count) : (e.edClamp rows cols).Good := by
  have row : 0 ≤ (e.edClamp rows cols).cy ∧ (e.edClamp rows cols).cy < e.count := by
    unfold edClamp
    simp only
    split
    · split
      · omega
      · omega
    · split
      · omega
      · omega
  have between (n : Nat) (x : Int) : 0 ≤ (let y := if (n : Int) < x then (n : Int) else x; if y < 0 then 0 else y) ∧
      (let y := if (n : Int) < x then (n : Int) else x; if y < 0 then 0 else y) ≤ n := by
    simp only
    split
    · split
      · omega
      · omega
    · split
      · omega
      · omega
  exact ⟨neat, some_, row.1, row.2, (between _ _).1, (between _ _).2⟩

end Editor

namespace Session

variable {s t : Session} {c : UInt8} {k : Key}

/-- The buffer is good, and every use of it was. -/
def Sound (s : Session) : Prop :=
  s.e.Neat ∧ 0 < s.e.count ∧ (s.strayed = false → s.e.InText) ∧ s.sane = true

theorem look_sane (h : s.e.Good) (sane : s.sane = true) : s.look.sane = true := by
  simp [look, sane, h.neat, h.inside]

theorem edInsert_good (h : s.e.Good) (sane : s.sane = true) (plain : c ≠ 0) :
    (s.edInsert c).e.Good ∧ (s.edInsert c).sane = true ∧ (s.edInsert c).strayed = s.strayed := by
  have looked := look_sane h sane
  obtain ⟨_, _, left, right⟩ := h.inside
  obtain ⟨x, is⟩ := Int.eq_ofNat_of_zero_le left
  unfold edInsert
  simp only
  split
  · exact ⟨h, looked, rfl⟩
  rename_i room
  have le : x ≤ s.e.len := by omega
  have le : x ≤ strlen s.e.line := le
  obtain ⟨short, far⟩ := strlen_insert le (Nat.lt_of_not_le room) plain
  rw [show strlen s.e.line = s.e.len from rfl] at short far
  have e_ : s.look.e = s.e := rfl
  rw [e_, is, show ((x : Int) + 1).toNat = x + 1 from rfl, Int.toNat_natCast,
    show ((s.e.len : Int) - x + 1).toNat = s.e.len - x + 1 by omega]
  refine ⟨h.setLine short (by omega) (by omega), ?_, rfl⟩
  have n : (0 : Int) ≤ s.e.len - x + 1 := by omega
  show (s.look.sane && decide ((0 : Int) ≤ s.e.len - x + 1)) = true
  rw [looked, decide_eq_true n]
  rfl

theorem edBackspace_good (h : s.e.Good) (sane : s.sane = true) :
    s.edBackspace.e.Good ∧ s.edBackspace.sane = true ∧ s.edBackspace.strayed = s.strayed := by
  have looked := look_sane h sane
  obtain ⟨low, high, left, right⟩ := h.inside
  unfold edBackspace
  simp only
  have e_ : s.look.e = s.e := rfl
  rw [e_]
  split
  · rename_i pos
    obtain ⟨x, is⟩ := Int.eq_succ_of_zero_lt pos
    have le : x + 1 ≤ s.e.len := by omega
    have le : x + 1 ≤ strlen s.e.line := le
    obtain ⟨short, far⟩ := strlen_remove le h.short
    rw [show strlen s.e.line = s.e.len from rfl] at short far
    rw [is, show ((x : Int) + 1 - 1).toNat = x by omega, show ((x : Int) + 1).toNat = x + 1 from rfl,
      show ((s.e.len : Int) - (x + 1) + 1).toNat = s.e.len - (x + 1) + 1 by omega]
    refine ⟨h.setLine short (by omega) (by omega), ?_, rfl⟩
    have n : (0 : Int) ≤ s.e.len - (x + 1) + 1 := by omega
    show (s.look.sane && decide ((0 : Int) ≤ s.e.len - (x + 1) + 1)) = true
    rw [looked, decide_eq_true n]
    rfl
  split
  · exact ⟨h, looked, rfl⟩
  rename_i begin_ top
  split
  · exact ⟨h, looked, rfl⟩
  rename_i fits
  have above : (s.e.cy - 1).toNat + 1 < s.e.count := by omega
  have fits : strlen (s.e.ls.row (s.e.cy - 1).toNat) + strlen s.e.line < edMaxCol := Nat.lt_of_not_le fits
  obtain ⟨short, far⟩ := strlen_join fits
  refine ⟨⟨fun i lt => ?_, ?_, ?_, ?_, ?_, ?_⟩, looked, rfl⟩
  · have lt : i < s.e.count - 1 := lt
    obtain ⟨inside, there, fits⟩ := h.neat i (by omega)
    refine ⟨inside, there, ?_⟩
    simp only
    split
    · rename_i below
      rw [upd_ne (by omega)]
      exact (h.neat (i + 1) (by omega)).2.2
    · by_cases is : i = (s.e.cy - 1).toNat
      · rw [is, upd_same]
        exact short
      · rw [upd_ne is]
        exact fits
  · show 0 < s.e.count - 1
    omega
  · show 0 ≤ s.e.cy - 1
    omega
  · show s.e.cy - 1 < ((s.e.count - 1 : Nat) : Int)
    omega
  · exact Int.natCast_nonneg _
  · have out : ¬(s.e.cy ≤ (s.e.cy - 1).toNat ∧ (s.e.cy - 1).toNat + 1 < s.e.count) := by omega
    refine le_of_le_of_eq (Int.ofNat_le.mpr far) (congrArg (fun row => ((strlen row : Nat) : Int)) ?_)
    exact ((if_neg out).trans upd_same).symm

theorem edNewline_refused {room : Nat → Bool} (no : s.opens room = false) : s.edNewline room = s := by
  rw [opens, Bool.and_eq_false_iff, decide_eq_false_iff_not, Option.isSome_eq_false_iff, Option.isNone_iff_eq_none]
    at no
  unfold edNewline
  rcases no with full | short
  · rw [if_pos (Nat.le_of_not_lt full)]
  · rw [short]
    exact ite_self s

theorem edNewline_good {room : Nat → Bool} (h : s.e.Good) (sane : s.sane = true) :
    (s.edNewline room).e.Good ∧ (s.edNewline room).sane = true ∧ (s.edNewline room).strayed = s.strayed := by
  have looked := look_sane h sane
  obtain ⟨low, high, left, right⟩ := h.inside
  unfold edNewline
  split
  · exact ⟨h, sane, rfl⟩
  rename_i full
  split
  · exact ⟨h, sane, rfl⟩
  rename_i ls edge
  obtain ⟨inside, _, there, old, same⟩ := line_some edge
  have kept (i : Nat) (lt : i < s.e.count) : ls.row i = s.e.ls.row i := same i (h.neat i lt).2.1
  have cx : s.e.cx.toNat < edMaxCol := by
    have short := h.short
    omega
  have next : s.e.cy.toNat + 1 ≠ s.e.cy.toNat := by omega
  refine ⟨⟨fun i lt => ?_, Nat.succ_pos _, ?_, ?_, Int.le_refl 0, Int.natCast_nonneg _⟩, looked, rfl⟩
  · have lt : i < s.e.count + 1 := lt
    have chunk : ls.chunk (i / lsLinesPerChunk) = true := by
      by_cases is : i = s.e.count
      · rw [is]
        exact there
      · exact old _ (h.neat i (by omega)).2.1
    refine ⟨by omega, chunk, ?_⟩
    by_cases here : i = s.e.cy.toNat
    · rw [here]
      refine lt_of_le_of_lt (strlen_le (n := s.e.cx.toNat) ?_) cx
      exact (congrFun upd_same _).trans upd_same
    by_cases below : i = s.e.cy.toNat + 1
    · rw [below]
      refine lt_of_le_of_lt (strlen_le (n := min (s.e.len - s.e.cx).toNat (edMaxCol - 1)) ?_) ?_
      · refine (congrFun ((upd_ne next).trans upd_same) _).trans ?_
        exact (if_neg (Nat.lt_irrefl _)).trans (if_pos rfl)
      · have pos : 0 < edMaxCol := by decide
        omega
    · refine lt_of_eq_of_lt (congrArg strlen ((upd_ne here).trans (upd_ne below))) ?_
      split
      · rename_i under
        have under : s.e.cy + 1 < i ∧ i ≤ s.e.count := under
        rw [kept _ (by omega)]
        exact (h.neat _ (by omega)).2.2
      · rename_i before
        have before : ¬(s.e.cy + 1 < i ∧ i ≤ s.e.count) := before
        rw [kept _ (by omega)]
        exact (h.neat _ (by omega)).2.2
  · show 0 ≤ s.e.cy + 1
    omega
  · show s.e.cy + 1 < ((s.e.count + 1 : Nat) : Int)
    omega

/-- What a handler that uses the buffer keeps, from a sound state in which the cursor has not strayed. -/
theorem Sound.of_good (h : s.Sound) (still : s.strayed = false)
    (does : s.e.Good → s.sane = true → t.e.Good ∧ t.sane = true ∧ t.strayed = s.strayed) : t.Sound := by
  obtain ⟨neat, some_, inside, sane⟩ := h
  obtain ⟨good, sane, _⟩ := does ⟨neat, some_, inside still⟩ sane
  exact ⟨good.neat, good.some_, fun _ => good.inside, sane⟩

/-- A move of the cursor. -/
theorem Sound.moved (h : s.Sound) {cy cx : Int} : (s.moved { s.e with cy := cy, cx := cx }).Sound := by
  refine ⟨h.1, h.2.1, fun still => ?_, h.2.2.2⟩
  simpa [Session.moved] using still

theorem mouse_sound (h : s.Sound) (m : Mouse) : (s.mouse m).Sound := by
  cases m with
  | wheelUp => exact ⟨h.1, h.2.1, h.2.2.1, h.2.2.2⟩
  | wheelDown => exact ⟨h.1, h.2.1, h.2.2.1, h.2.2.2⟩
  | other => exact ⟨h.1, h.2.1, h.2.2.1, h.2.2.2⟩
  | down x y =>
    unfold mouse
    simp only
    split
    · have placed : (s.moved { s.e with cy := s.e.top + y - 1, cx := s.e.left + x }).Sound := h.moved
      exact ⟨placed.1, placed.2.1, placed.2.2.1, placed.2.2.2⟩
    · exact ⟨h.1, h.2.1, h.2.2.1, h.2.2.2⟩

/-- A key keeps the state sound, when it uses the buffer only with the cursor in the text. -/
theorem press_sound (h : s.Sound) (settled : s.uses (.key k) = true → s.strayed = false) : (s.press k).Sound := by
  cases k with
  | up => exact h.moved
  | down => exact h.moved
  | home => exact h.moved
  | pgUp => exact h.moved
  | pgDn => exact h.moved
  | left =>
    unfold press
    simp only
    split
    · exact h.moved
    rename_i begin_
    split
    · rename_i under
      have begin_ : s.e.cx = 0 := by simpa using begin_
      have still := settled (by simp [uses, begin_, under])
      refine h.of_good still fun good sane => ?_
      obtain ⟨low, high, left, right⟩ := good.inside
      have above : Editor.Good { s.e with cy := s.e.cy - 1 } := by
        refine ⟨good.neat, good.some_, ?_, ?_, left, ?_⟩
        · show 0 ≤ s.e.cy - 1
          omega
        · show s.e.cy - 1 < s.e.count
          omega
        · show s.e.cx ≤ ((strlen (s.e.ls.row (s.e.cy - 1).toNat) : Nat) : Int)
          omega
      refine ⟨?_, look_sane (s := { s with e := { s.e with cy := s.e.cy - 1 } }) above sane, rfl⟩
      exact ⟨above.neat, above.some_, above.inside.1, above.inside.2.1, Int.natCast_nonneg _, Int.le_refl _⟩
    · exact h
  | right =>
    refine h.of_good (settled rfl) fun good sane => ?_
    have looked := look_sane good sane
    obtain ⟨low, high, left, right⟩ := good.inside
    unfold press
    simp only
    split
    · rename_i more
      have more : s.e.cx < s.e.len := more
      refine ⟨⟨good.neat, good.some_, low, high, ?_, ?_⟩, looked, rfl⟩
      · show 0 ≤ s.e.cx + 1
        omega
      · show s.e.cx + 1 ≤ s.e.len
        omega
    split
    · rename_i more
      have more : s.e.cy < (s.e.count : Int) - 1 := more
      refine ⟨⟨good.neat, good.some_, ?_, ?_, Int.le_refl 0, Int.natCast_nonneg _⟩, looked, rfl⟩
      · show 0 ≤ s.e.cy + 1
        omega
      · show s.e.cy + 1 < s.e.count
        omega
    · exact ⟨good, looked, rfl⟩
  | end_ =>
    refine h.of_good (settled rfl) fun good sane => ?_
    refine ⟨⟨good.neat, good.some_, good.inside.1, good.inside.2.1, Int.natCast_nonneg _, Int.le_refl _⟩,
      look_sane good sane, rfl⟩
  | delete =>
    refine h.of_good (settled rfl) fun good sane => ?_
    have looked := look_sane good sane
    obtain ⟨low, high, left, right⟩ := good.inside
    unfold press
    simp only
    split
    · rename_i more
      have more : s.e.cx < s.e.len := more
      have next : Editor.Good { s.e with cx := s.e.cx + 1 } := by
        refine ⟨good.neat, good.some_, low, high, ?_, ?_⟩
        · show 0 ≤ s.e.cx + 1
          omega
        · show s.e.cx + 1 ≤ s.e.len
          omega
      exact edBackspace_good (s := { s.look with e := { s.e with cx := s.e.cx + 1 } }) next looked
    split
    · rename_i more
      have more : s.e.cy < (s.e.count : Int) - 1 := more
      have next : Editor.Good { s.e with cy := s.e.cy + 1, cx := 0 } := by
        refine ⟨good.neat, good.some_, ?_, ?_, Int.le_refl 0, Int.natCast_nonneg _⟩
        · show 0 ≤ s.e.cy + 1
          omega
        · show s.e.cy + 1 < s.e.count
          omega
      exact edBackspace_good (s := { s.look with e := { s.e with cy := s.e.cy + 1, cx := 0 } }) next looked
    · exact ⟨good, looked, rfl⟩
  | save opens ok =>
    unfold press
    simp only
    split
    · exact h
    · rename_i opened
      refine h.of_good (settled ?_) fun good sane => ?_
      · simpa [uses] using opened
      · exact ⟨⟨good.neat, good.some_, good.inside⟩, look_sane good sane, rfl⟩
  | quit =>
    unfold press
    simp only
    split
    · exact ⟨h.1, h.2.1, h.2.2.1, h.2.2.2⟩
    · exact ⟨h.1, h.2.1, h.2.2.1, h.2.2.2⟩
  | cr room =>
    by_cases fits : s.opens room = true
    · refine h.of_good (settled (by simpa [uses] using fits)) fun good sane => ?_
      have does : (s.edNewline room).e.Good ∧ _ := edNewline_good good sane
      exact ⟨does.1, does.2⟩
    · have same := edNewline_refused (Bool.eq_false_iff.mpr fits)
      unfold press
      simp only [same]
      exact ⟨h.1, h.2.1, h.2.2.1, h.2.2.2⟩
  | lf room =>
    unfold press
    simp only
    split
    · exact h
    rename_i alone
    by_cases fits : s.opens room = true
    · refine h.of_good (settled (by simpa [uses, fits] using alone)) fun good sane => ?_
      exact edNewline_good good sane
    · rw [edNewline_refused (Bool.eq_false_iff.mpr fits)]
      exact h
  | backspace =>
    refine h.of_good (settled rfl) fun good sane => ?_
    exact edBackspace_good good sane
  | tab =>
    have once (t : Session) (h : t.Sound) (still : t.strayed = false) :
        (t.edInsert 0x20).Sound ∧ (t.edInsert 0x20).strayed = false := by
      have does := edInsert_good (c := 0x20) ⟨h.1, h.2.1, h.2.2.1 still⟩ h.2.2.2 (by decide)
      exact ⟨h.of_good still fun _ _ => does, does.2.2.trans still⟩
    have one := once s h (settled rfl)
    have two := once _ one.1 one.2
    have three := once _ two.1 two.2
    unfold press
    exact (once _ three.1 three.2).1
  | refresh size =>
    cases size with
    | none => exact h
    | some _ => exact ⟨h.1, h.2.1, h.2.2.1, h.2.2.2⟩
  | char code =>
    unfold press
    simp only
    split
    · rename_i plain
      refine h.of_good (settled (by simpa [uses] using plain)) fun good sane => ?_
      refine edInsert_good good sane fun zero => ?_
      have same := congrArg UInt8.toNat zero
      simp at same
      omega
    · exact h

/-- What a step keeps. -/
theorem step_sound {event : Event} (h : s.Sound) (settled : Settled s event) (taken : step s event = some t) :
    t.Sound := by
  cases event with
  | turn =>
    unfold step at taken
    simp only at taken
    split at taken
    · obtain rfl := Option.some.inj taken
      have good : (s.e.edClamp s.rows s.cols).Good := Editor.edClamp_good h.1 h.2.1
      exact ⟨good.neat, good.some_, fun _ => good.inside, h.2.2.2⟩
    · cases taken
  | mouse m =>
    obtain rfl := Option.some.inj taken
    exact mouse_sound h m
  | key k =>
    obtain rfl := Option.some.inj taken
    obtain ⟨armed, cr, eq⟩ := key_eq (s := s) (k := k)
    have pressed := press_sound h settled
    rw [eq]
    exact ⟨pressed.1, pressed.2.1, pressed.2.2.1, pressed.2.2.2⟩

end Session

/-! ### The text that is loaded -/

/-- The lines that are done end in their buffers, and there is a buffer for the next one. -/
structure Tidy (l : Load) : Prop where
  short : l.col < edMaxCol
  done : ∀ i < l.row, i < edMaxLines ∧ l.ls.chunk (i / lsLinesPerChunk) = true ∧ strlen (l.ls.row i) < edMaxCol
  begun : l.oom = true → 0 < l.row
  next : l.goesOn = true → l.ls.chunk (l.row / lsLinesPerChunk) = true

theorem goesOn_iff {l : Load} : l.goesOn = true ↔ l.oom = false ∧ l.row < edMaxLines := by
  simp [Load.goesOn]

theorem Tidy.byte {room : Nat → Bool} {l : Load} (h : Tidy l) (c : UInt8) : Tidy (l.byte room c) := by
  cases on : l.goesOn with
  | false =>
    have same : l.byte room c = l := by
      unfold Load.byte
      rw [on]
      rfl
    rw [same]
    exact h
  | true =>
    have there := h.next on
    obtain ⟨oom, row⟩ := goesOn_iff.mp on
    unfold Load.byte
    rw [on, if_neg (by decide)]
    split
    · exact h
    split
    · -- The line is ended, and it is short.
      have ended (i : Nat) (lt : i < l.row + 1) : i < edMaxLines ∧ l.ls.chunk (i / lsLinesPerChunk) = true ∧
          strlen ((l.ls.put l.row l.col 0).row i) < edMaxCol := by
        by_cases is : i = l.row
        · rw [is]
          refine ⟨row, there, lt_of_le_of_lt (strlen_le (n := l.col) ?_) h.short⟩
          rw [row_put_same]
          exact upd_same
        · rw [row_put_ne is]
          exact h.done i (by omega)
      simp only
      split
      · split
        · rename_i ls edge
          obtain ⟨_, _, given, old, same⟩ := line_some edge
          refine ⟨show 0 < edMaxCol by decide, fun i lt => ?_, fun no => absurd (oom.symm.trans no) (by decide),
            fun _ => given⟩
          obtain ⟨inside, chunk, short⟩ := ended i lt
          refine ⟨inside, old _ chunk, ?_⟩
          rw [same i chunk]
          exact short
        · exact ⟨show 0 < edMaxCol by decide, ended, fun _ => Nat.succ_pos _,
            fun no => absurd (goesOn_iff.mp no).1.symm Bool.false_ne_true⟩
      · rename_i full
        exact ⟨show 0 < edMaxCol by decide, ended, fun _ => Nat.succ_pos _,
          fun no => absurd (goesOn_iff.mp no).2 full⟩
    split
    · rename_i fits
      refine ⟨fits, fun i lt => ?_, h.begun, fun _ => there⟩
      have lt : i < l.row := lt
      obtain ⟨inside, chunk, short⟩ := h.done i lt
      refine ⟨inside, chunk, ?_⟩
      show strlen ((l.ls.put l.row l.col c).row i) < edMaxCol
      rw [row_put_ne (Nat.ne_of_lt lt)]
      exact short
    · exact ⟨h.short, h.done, h.begun, fun _ => there⟩

theorem Tidy.foldl {room : Nat → Bool} {l : Load} (h : Tidy l) (bytes : List UInt8) :
    Tidy (bytes.foldl (Load.byte room) l) := by
  induction bytes generalizing l with
  | nil => exact h
  | cons c bytes ih => exact ih (h.byte c)

/-- A load that ends leaves a sound text with the cursor at its beginning. -/
theorem Tidy.finish {l : Load} (h : Tidy l) : l.finish.Good := by
  cases on : l.goesOn with
  | true =>
    obtain ⟨oom, row⟩ := goesOn_iff.mp on
    have full : (l.oom || decide (edMaxLines ≤ l.row)) = false := by simp [oom, row]
    unfold Load.finish
    rw [full]
    refine ⟨fun i lt => ?_, ?_, Int.le_refl 0, ?_, Int.le_refl 0, Int.natCast_nonneg _⟩
    · have lt : i < l.row + 1 := lt
      show i < edMaxLines ∧ l.ls.chunk (i / lsLinesPerChunk) = true ∧
        strlen ((l.ls.put l.row l.col 0).row i) < edMaxCol
      by_cases is : i = l.row
      · rw [is]
        refine ⟨row, h.next on, lt_of_le_of_lt (strlen_le (n := l.col) ?_) h.short⟩
        rw [row_put_same]
        exact upd_same
      · rw [row_put_ne is]
        exact h.done i (by omega)
    · exact Nat.succ_pos _
    · exact Int.natCast_pos.mpr (Nat.succ_pos _)
  | false =>
    have full : (l.oom || decide (edMaxLines ≤ l.row)) = true := by
      simpa [Load.goesOn, ← Bool.not_eq_true, Decidable.imp_iff_not_or] using on
    have some_ : 0 < l.row := by
      rw [Bool.or_eq_true, decide_eq_true_eq] at full
      rcases full with oom | many
      · exact h.begun oom
      · exact lt_of_lt_of_le (show 0 < edMaxLines by decide) many
    have count : l.finish.count = l.row := by
      unfold Load.finish
      rw [full]
      exact if_neg (Nat.ne_of_gt some_)
    have ls : l.finish.ls = l.ls := by
      unfold Load.finish
      rw [full]
      rfl
    refine ⟨fun i lt => ?_, ?_, Int.le_refl 0, ?_, Int.le_refl 0, Int.natCast_nonneg _⟩
    · rw [count] at lt
      rw [ls]
      exact h.done i lt
    · rw [count]
      exact some_
    · rw [count]
      exact Int.natCast_pos.mpr some_

theorem edLoad_good {src : Source} {e : Editor} (loaded : edLoad src = some e) : e.Good := by
  unfold edLoad at loaded
  split at loaded
  · cases loaded
  rename_i ls edge
  obtain ⟨_, _, there, _⟩ := line_some edge
  simp only at loaded
  split at loaded
  · obtain rfl := Option.some.inj loaded
    refine ⟨fun i lt => ?_, Nat.one_pos, Int.le_refl 0, Int.one_pos, Int.le_refl 0, Int.natCast_nonneg _⟩
    rw [Nat.lt_one_iff.mp lt]
    refine ⟨by decide, there, lt_of_le_of_lt (strlen_le (n := 0) ?_) (by decide)⟩
    show (ls.put 0 0 0).row 0 0 = 0
    rw [row_put_same]
    exact upd_same
  · split at loaded
    · cases loaded
    obtain rfl := Option.some.inj loaded
    rw [loop_eq]
    refine Tidy.finish (Tidy.foldl ⟨show 0 < edMaxCol by decide, fun i no => absurd no (Nat.not_lt_zero _), ?_, ?_⟩ _)
    · exact fun no => Bool.noConfusion no
    · exact fun _ => there

/-- The cursor is in the text, the text is sound and no length is negative at every use of the buffer, in every
run in which no event uses the buffer behind a move that left the text. -/
theorem run_sane {src : Source} {e : Editor} {rows cols : Int} {s : Session} (loaded : edLoad src = some e)
    (run : Run step Settled (Session.start e rows cols) s) : s.sane = true := by
  have good := edLoad_good loaded
  have sound : s.Sound := run.invariant (P := Session.Sound) ⟨good.neat, good.some_, fun _ => good.inside, rfl⟩
    fun _ _ _ h settled taken => Session.step_sound h settled taken
  exact sound.2.2.2

/-- A burst that moves out of the text and back, a refresh, and keys that use the buffer. -/
def settledKeys : List Event :=
  [.turn, .key .up, .key .down, .key (.char 0x62), .key .down, .turn, .key .backspace, .key (.cr fun _ => true),
    .mouse (.down 3 1), .turn, .key .delete]

theorem run_sane_keys : ∃ e s, edLoad (oneLine 2) = some e ∧
    Run step Settled (Session.start e 22 80) s ∧ s.sane = true := by
  have typed : (edLoad (oneLine 2)).bind (fun e => (exec step (Session.start e 22 80) settledKeys).map fun _ =>
      allowed step Settled (Session.start e 22 80) settledKeys) = some true := by decide +kernel
  obtain ⟨e, loaded, typed⟩ := Option.bind_eq_some_iff.mp typed
  obtain ⟨s, ran, settled⟩ := Option.map_eq_some_iff.mp typed
  exact ⟨e, s, loaded, Run.of_exec ran settled, run_sane loaded (Run.of_exec ran settled)⟩

/-- A letter right behind an arrow that left the text at the top is put into a line that is not there. -/
theorem not_run_sane : ¬∀ (src : Source) (e : Editor) (rows cols : Int) (s : Session), edLoad src = some e →
    Run step (fun _ _ => True) (Session.start e rows cols) s → s.sane = true := by
  intro all
  have typed : (edLoad (oneLine 2)).bind (fun e => (exec step (Session.start e 22 80)
      [.turn, .key .up, .key (.char 0x62)]).map Session.sane) = some false := by decide +kernel
  obtain ⟨e, loaded, typed⟩ := Option.bind_eq_some_iff.mp typed
  obtain ⟨s, ran, bad⟩ := Option.map_eq_some_iff.mp typed
  refine absurd (bad.symm.trans (all _ e 22 80 s loaded (Run.of_exec ran ?_))) (by decide)
  simp [allowed, step, Session.start]

end RPCortex.Edit
