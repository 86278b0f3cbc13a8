import RPCortex.Edit.Loaded

/-! What `ed_save` writes of a text that was loaded. -/

namespace RPCortex.Edit

open Lib

variable {room : Nat → Bool} {l : Load} {p : List UInt8} {lines : List (List UInt8)} {last : List UInt8}
  {src : Source} {e : Editor}

/-- What the reads hand over before one hands over nothing. -/
def heard (file : List UInt8) (read : Nat → Int) : (fuel off : Nat) → List UInt8
  | 0, _ => []
  | fuel + 1, off =>
    if got file read off = [] then []
    else got file read off ++ heard file read fuel (off + (got file read off).length)

/-- What was read of the file. -/
def Source.heard (src : Source) : List UInt8 :=
  if src.found then Edit.heard src.file src.read (src.file.length + 1) 0 else []

theorem got_prefix (file : List UInt8) (read : Nat → Int) (off : Nat) :
    ∃ rest, file.drop off = got file read off ++ rest ∧ rest = file.drop (off + (got file read off).length) := by
  refine ⟨(file.drop off).drop (got file read off).length, ?_, by rw [List.drop_drop]⟩
  have take : got file read off = (file.drop off).take (got file read off).length := by
    unfold got
    rw [List.length_take, List.take_eq_take_iff]
    omega
  conv_lhs => rw [← List.take_append_drop (got file read off).length (file.drop off), ← take]

theorem heard_prefix {file : List UInt8} {read : Nat → Int} (fuel off : Nat) :
    heard file read fuel off <+: file.drop off := by
  induction fuel generalizing off with
  | zero => exact List.nil_prefix
  | succ fuel ih =>
    unfold heard
    split
    · exact List.nil_prefix
    · obtain ⟨rest, whole, behind⟩ := got_prefix file read off
      rw [whole, behind]
      exact (List.prefix_append_right_inj _).mpr (ih _)

/-- A read that hands over something takes a byte of the file, so a step for each byte that is left is enough. -/
theorem heard_enough {file : List UInt8} {read : Nat → Int} {fuel off : Nat} (enough : file.length ≤ off + fuel) :
    heard file read (fuel + 1) off = heard file read fuel off := by
  induction fuel generalizing off with
  | zero =>
    have none_ : got file read off = [] := by
      have behind : file.drop off = [] := List.drop_of_length_le enough
      rw [got, behind, List.take_nil]
    show (if got file read off = [] then [] else _) = []
    exact if_pos none_
  | succ fuel ih =>
    rw [heard]
    conv_rhs => rw [heard]
    by_cases none_ : got file read off = []
    · rw [if_pos none_, if_pos none_]
    · have some_ := List.length_pos_of_ne_nil none_
      rw [if_neg none_, if_neg none_, ih (by omega)]

theorem foldl_stopped (bytes : List UInt8) (stopped : l.goesOn = false) : bytes.foldl (Load.byte room) l = l := by
  induction bytes with
  | nil => rfl
  | cons c bytes ih =>
    have same : l.byte room c = l := by
      unfold Load.byte
      rw [stopped]
      rfl
    rw [List.foldl_cons, same]
    exact ih

theorem loop_eq {file : List UInt8} {read : Nat → Int} (fuel off : Nat) :
    Load.loop room file read fuel off l = (heard file read fuel off).foldl (Load.byte room) l := by
  induction fuel generalizing off l with
  | zero => rfl
  | succ fuel ih =>
    unfold Load.loop heard
    split
    · rename_i full
      refine (foldl_stopped _ ?_).symm
      simp [Load.goesOn, Nat.not_lt.mpr full]
    split
    · rfl
    · rw [List.foldl_append]
      simp only
      split
      · rename_i oom
        refine (foldl_stopped _ ?_).symm
        simp [Load.goesOn, oom]
      · exact ih _

/-- Bytes that are read are in the buffer, or they do not fit and the load is marked. -/
theorem loads_foldl (h : Loads room [] l [] []) (p : List UInt8) :
    (∃ lines last, Loads room p (p.foldl (Load.byte room) l) lines last) ∨
    (p.foldl (Load.byte room) l).marked = true ∧ Over room p := by
  induction p using List.reverseRecOn with
  | nil => exact Or.inl ⟨[], [], h⟩
  | append_singleton p c ih =>
    rw [List.foldl_append, List.foldl_cons, List.foldl_nil]
    rcases ih with ⟨lines, last, loads⟩ | ⟨marked, full⟩
    · by_cases cr : c = 0x0D
      · rw [cr, loads.byte_cr]
        refine Or.inl ⟨lines, last, ?_, loads.plain, loads.row, loads.col, loads.held, loads.begun, loads.there,
          loads.had, loads.fits, loads.whole⟩
        rw [text_snoc, if_pos rfl]
        exact loads.said
      · by_cases nl : c = 0x0A
        · rw [nl]
          exact loads.byte_newline
        · exact loads.byte_other cr nl
    · exact Or.inr ⟨marked_byte marked, full.snoc⟩

/-- A piece of some lines without a newline is a piece of one of them. -/
theorem infix_unlines {nl : UInt8} {b : List UInt8} (plain : nl ∉ b) (inside : b <:+: unlines nl lines ++ last) :
    ∃ line ∈ lines ++ [last], b <:+: line := by
  induction lines with
  | nil => exact ⟨last, List.mem_singleton_self _, inside⟩
  | cons line lines ih =>
    rw [unlines_cons, List.append_assoc, List.cons_append] at inside
    have cut : b <:+: line ∨ b <:+: unlines nl lines ++ last := by
      obtain ⟨s, t, eq⟩ := inside
      rcases List.append_eq_append_iff.mp eq with ⟨a, rfl, eq⟩ | ⟨a, eq, rest⟩
      · exact Or.inl ⟨s, a, rfl⟩
      · cases a with
        | nil =>
          rw [List.append_nil] at eq
          exact Or.inl ⟨s, [], by rw [List.append_nil, eq]⟩
        | cons x a =>
          obtain ⟨rfl, later⟩ := List.cons.inj rest
          -- The newline is in front of the piece, as it is not in it.
          rcases List.append_eq_append_iff.mp eq with ⟨a', _, there⟩ | ⟨a', _, there⟩
          · exact absurd (there ▸ List.mem_append_right _ List.mem_cons_self) plain
          · cases a' with
            | nil => exact absurd (by rw [← show _ = b from there]; exact List.mem_cons_self) plain
            | cons y a' =>
              obtain ⟨_, there⟩ := List.cons.inj there
              exact Or.inr ⟨a', t, (later.trans (congrArg (· ++ t) there)).symm⟩
    rcases cut with here | later
    · exact ⟨line, List.mem_cons_self, here⟩
    · obtain ⟨other, mem, piece⟩ := ih later
      exact ⟨other, List.mem_cons_of_mem _ mem, piece⟩

theorem Loads.not_over (h : Loads room p l lines last) : ¬Over room p := by
  rintro (many | ⟨j, lt, le, refused⟩ | ⟨line, inside, plain, long⟩)
  · rw [h.count, ← h.row] at many
    exact absurd h.fits (Nat.not_lt.mpr many)
  · rw [h.count, ← h.row] at le
    exact absurd ((h.had _ (h.there j le)).symm.trans refused) (by decide)
  · rw [h.said] at inside
    obtain ⟨whole, mem, piece⟩ := infix_unlines plain inside
    exact absurd (long.trans piece.length_le) (Nat.not_le.mpr (h.plain whole mem).2)

/-! ### The whole load -/

/-- The whole text is in the lines in use. -/
def Whole (e : Editor) (p : List UInt8) : Prop :=
  ∃ lines last, text p = unlines 0x0A lines ++ last ∧ (∀ line ∈ lines ++ [last], 0x0A ∉ line ∧ line.length < edMaxCol) ∧
    e.count = (lines ++ [last]).length ∧ Holds e.ls (lines ++ [last])

theorem Loads.finish (h : Loads room p l lines last) : l.finish.truncated = false ∧ Whole l.finish p := by
  have full : (l.oom || decide (edMaxLines ≤ l.row)) = false := by simp [h.whole.1, h.fits]
  unfold Load.finish
  rw [full]
  refine ⟨by simp [h.whole.2], lines, last, h.said, h.plain, ?_, ?_⟩
  · rw [List.length_append, List.length_singleton, ← h.row]
    rfl
  · show Holds (l.ls.put l.row l.col 0) _
    refine (h.held.congr fun j lt => row_put_ne ?_).snoc ?_
    · rw [h.row]
      exact Nat.ne_of_lt lt
    · rw [← h.row, row_put_same, h.col]
      exact h.begun.close

theorem marked_finish (marked : l.marked = true) : l.finish.truncated = true := by
  simp only [Load.marked, Bool.or_eq_true, decide_eq_true_eq] at marked
  simp only [Load.finish, Bool.or_eq_true, decide_eq_true_eq]
  rcases marked with (oom | cut) | full
  · exact Or.inr (Or.inl oom)
  · exact Or.inl cut
  · exact Or.inr (Or.inr full)

theorem loads_start {ls : LineStore} (edge : LineStore.empty.line 0 room = some ls) :
    Loads room [] ⟨ls.put 0 0 0, 0, 0, false, false⟩ [] [] := by
  obtain ⟨_, given, there, _⟩ := line_some edge
  refine ⟨rfl, fun line mem => ?_, rfl, rfl, fun _ no => absurd no (Nat.not_lt_zero _), begins_nil _, fun j le => ?_,
    fun c chunk => ?_, show 0 < edMaxLines by decide, rfl, rfl⟩
  · rw [List.mem_singleton.mp mem]
    exact ⟨List.not_mem_nil, by decide⟩
  · rw [Nat.le_zero.mp le]
    exact there
  · rcases given c chunk with no | yes
    · cases no
    · exact yes

/-- A load has all of the text that was read, or the text does not fit and the buffer is marked. -/
theorem edLoad_whole (loaded : edLoad src = some e) :
    (e.truncated = false ∧ Whole e src.heard ∧ ¬Over src.room src.heard) ∨
    (e.truncated = true ∧ Over src.room src.heard) := by
  unfold edLoad at loaded
  split at loaded
  · cases loaded
  rename_i ls edge
  have begun := loads_start edge
  simp only at loaded
  split at loaded
  · rename_i missing
    have missing : src.found = false := by simpa using missing
    obtain rfl := Option.some.inj loaded
    have none_ : src.heard = [] := by rw [Source.heard, missing]; rfl
    rw [none_]
    refine Or.inl ⟨rfl, ⟨[], [], rfl, begun.plain, rfl, fun j lt => ?_⟩, begun.not_over⟩
    rw [Nat.lt_one_iff.mp lt]
    refine ⟨fun _ no => absurd no (Nat.not_lt_zero _), ?_⟩
    show (ls.put 0 0 0).row 0 0 = 0
    rw [row_put_same]
    exact upd_same
  · rename_i found
    have found : src.found = true := by simpa using found
    split at loaded
    · cases loaded
    obtain rfl := Option.some.inj loaded
    have heard : src.heard = Edit.heard src.file src.read (src.file.length + 1) 0 := by
      rw [Source.heard, found]
      rfl
    rw [loop_eq, ← heard]
    rcases loads_foldl begun src.heard with ⟨lines, last, loads⟩ | ⟨marked, full⟩
    · exact Or.inl ⟨loads.finish.1, loads.finish.2, loads.not_over⟩
    · exact Or.inr ⟨marked_finish marked, full⟩

/-! ### What is saved -/

theorem cstr_eq {row : Row} {line : List UInt8} (spells : Spells row line) (short : line.length < edMaxCol) :
    cstr row = line.takeWhile (· ≠ 0) := by
  obtain ⟨m, size⟩ := Nat.exists_eq_add_of_lt short
  have front : (List.range line.length).map row = line := by
    refine List.ext_getElem (by simp) fun i lt lt' => ?_
    rw [List.getElem_map, List.getElem_range, spells.1 i lt', List.getD_eq_getElem _ _ lt']
  have parts : (List.range edMaxCol).map row =
      line ++ 0 :: ((List.range m).map Nat.succ).map (row ∘ (line.length + ·)) := by
    rw [size, Nat.add_assoc, List.range_add, List.map_append, front, List.map_map, List.range_succ_eq_map,
      List.map_cons]
    have zero : (row ∘ (line.length + ·)) 0 = 0 := spells.2
    rw [zero]
  rw [cstr, parts, List.takeWhile_append]
  split
  · rename_i all
    rw [List.takeWhile_cons_of_neg (by simp), List.append_nil]
    exact ((List.takeWhile_prefix _).eq_of_length all).symm
  · rfl

theorem flatMap_range {α β : Type*} (l : List α) (f : Nat → List β) (g : α → List β)
    (same : ∀ i (lt : i < l.length), f i = g l[i]) : (List.range l.length).flatMap f = l.flatMap g := by
  have maps : (List.range l.length).map f = l.map g := by
    refine List.ext_getElem (by simp) fun i lt lt' => ?_
    rw [List.getElem_map, List.getElem_map, List.getElem_range]
    exact same i (by simpa using lt')
  rw [List.flatMap_def, List.flatMap_def, maps]

/-- A text that was loaded whole is saved with each line up to its first zero, and a newline behind each. -/
theorem edSave_whole (fits : e.truncated = false) {lines : List (List UInt8)}
    (plain : ∀ line ∈ lines, 0x0A ∉ line ∧ line.length < edMaxCol) (count : e.count = lines.length)
    (holds : Holds e.ls lines) : edSave e = some (unlines 0x0A (lines.map (·.takeWhile (· ≠ 0)))) := by
  rw [edSave, fits, if_neg (by decide), count]
  refine congrArg some ?_
  rw [flatMap_range lines _ (fun line => line.takeWhile (· ≠ 0) ++ [0x0A]) fun i lt => ?_]
  · rw [unlines, List.flatMap_map]
  · have spells := holds i lt
    rw [List.getD_eq_getElem _ _ lt] at spells
    rw [cstr_eq spells (plain _ (List.getElem_mem lt)).2]

theorem sublist_takeWhile_lines (lines : List (List UInt8)) :
    (unlines 0x0A (lines.map (·.takeWhile (· ≠ 0)))).Sublist (unlines 0x0A lines) := by
  induction lines with
  | nil => exact List.Sublist.refl _
  | cons line lines ih =>
    rw [List.map_cons, unlines_cons, unlines_cons]
    exact (List.takeWhile_sublist _).append (ih.cons_cons _)

theorem zero_notMem_saved (lines : List (List UInt8)) : 0 ∉ unlines 0x0A (lines.map (·.takeWhile (· ≠ 0))) := by
  intro mem
  rw [unlines, List.flatMap_map] at mem
  obtain ⟨line, _, here⟩ := List.mem_flatMap.mp mem
  rcases List.mem_append.mp here with inside | newline
  · exact absurd (List.mem_takeWhile_imp inside) (by decide)
  · exact absurd (List.mem_singleton.mp newline) (by decide)

theorem text_eq_self (plain : 0x0D ∉ p) : text p = p := by
  refine List.filter_eq_self.mpr fun c mem => decide_eq_true ?_
  rintro rfl
  exact plain mem

theorem of_length_text (all : p.length ≤ (text p).length) : 0x0D ∉ p := by
  intro mem
  have whole : text p = p := (List.filter_sublist).eq_of_length (Nat.le_antisymm (List.length_filter_le _ _) all)
  rw [← whole] at mem
  exact absurd (List.mem_filter.mp mem).2 (by decide)

theorem count_text : (text p).count 0x0A = p.count 0x0A := List.count_filter (by decide)

theorem Source.heard_prefix (src : Source) : src.heard <+: src.file := by
  unfold Source.heard
  split
  · exact Edit.heard_prefix _ 0
  · exact List.nil_prefix

/-- Opening and saving leaves a file as it is only when a read fails right in front of a newline at its end, and
there is neither a carriage return nor a zero in it. -/
theorem edSave_same (loaded : edLoad src = some e) (fits : e.truncated = false) :
    edSave e = some src.file ↔ src.file = src.heard ++ [0x0A] ∧ 0x0D ∉ src.heard ∧ 0 ∉ src.heard := by
  have whole : Whole e src.heard := by
    rcases edLoad_whole loaded with ⟨_, whole, _⟩ | ⟨cut, _⟩
    · exact whole
    · exact absurd (fits.symm.trans cut) (by decide)
  obtain ⟨lines, last, said, plain, count, holds⟩ := whole
  have saved := edSave_whole fits plain count holds
  have all : unlines 0x0A (lines ++ [last]) = text src.heard ++ [0x0A] := by rw [unlines_snoc, said]
  rw [saved, Option.some.injEq]
  constructor
  · intro same
    obtain ⟨rest, file⟩ := src.heard_prefix
    have newlines : src.file.count 0x0A = lines.length + 1 := by
      rw [← same, count_unlines, List.length_map, List.length_append, List.length_singleton]
      intro line mem
      obtain ⟨line', mem', rfl⟩ := List.mem_map.mp mem
      exact fun no => (plain line' mem').1 ((List.takeWhile_sublist _).subset no)
    have before : src.heard.count 0x0A = lines.length := by
      rw [← count_text, said, List.count_append,
        count_unlines lines fun line mem => (plain line (List.mem_append_left _ mem)).1,
        List.count_eq_zero.mpr (plain last (List.mem_append_right _ (List.mem_singleton_self _))).1, Nat.add_zero]
    have some_ : 0 < rest.length := by
      refine List.length_pos_of_ne_nil fun none_ => ?_
      rw [none_, List.append_nil] at file
      rw [← file, before] at newlines
      omega
    have sub := sublist_takeWhile_lines (lines ++ [last])
    have short := sub.length_le
    have fewer : (text src.heard).length ≤ src.heard.length := List.length_filter_le _ _
    have size := congrArg List.length file
    rw [same, all, List.length_append, List.length_singleton] at short
    rw [List.length_append] at size
    have cr : 0x0D ∉ src.heard := of_length_text (by omega)
    have exact_ : src.file = src.heard ++ [0x0A] := by
      rw [← same, sub.eq_of_length (by rw [same, all, List.length_append, List.length_singleton]; omega), all,
        text_eq_self cr]
    refine ⟨exact_, cr, fun zero => zero_notMem_saved (lines ++ [last]) ?_⟩
    rw [same, exact_]
    exact List.mem_append_left _ zero
  · rintro ⟨file, cr, zero⟩
    rw [text_eq_self cr] at all said
    have kept : (lines ++ [last]).map (·.takeWhile (· ≠ 0)) = lines ++ [last] := by
      refine (List.map_congr_left fun line mem => ?_).trans (List.map_id _)
      refine List.takeWhile_eq_self_iff.mpr fun x inside => decide_eq_true ?_
      rintro rfl
      have there : 0 ∈ unlines 0x0A (lines ++ [last]) :=
        List.mem_flatMap.mpr ⟨line, mem, List.mem_append_left _ inside⟩
      rw [all] at there
      rcases List.mem_append.mp there with here | newline
      · exact zero here
      · exact absurd (List.mem_singleton.mp newline) (by decide)
    rw [kept, all, file]

example : text [0x61, 0x0D, 0x0A] = [0x61, 0x0A] := by decide +kernel

/-- A file of one line, of which `n` bytes are read before the reads fail. -/
def oneLine (n : Int) : Source where
  file := [0x61, 0x0A]
  read := fun off => n - off
  room := fun _ => true
  found := true
  isDir := false
  opens := true
  block := true

theorem edSave_same_cut : ∃ e, edLoad (oneLine 1) = some e ∧ e.truncated = false ∧
    (edSave e = some (oneLine 1).file ↔
      (oneLine 1).file = (oneLine 1).heard ++ [0x0A] ∧ 0x0D ∉ (oneLine 1).heard ∧ 0 ∉ (oneLine 1).heard) := by
  have opened : (edLoad (oneLine 1)).map Editor.truncated = some false := by decide +kernel
  obtain ⟨e, loaded, fits⟩ := Option.map_eq_some_iff.mp opened
  exact ⟨e, loaded, fits, edSave_same loaded fits⟩

/-- A newline is added to a file that ends with one. -/
theorem not_all_saves_same : ¬∀ (src : Source) (e : Editor), edLoad src = some e → e.truncated = false →
    edSave e = some src.file := by
  intro all
  have opened : (edLoad (oneLine 2)).map (fun e => (e.truncated, edSave e)) =
      some (false, some [0x61, 0x0A, 0x0A]) := by decide +kernel
  obtain ⟨e, loaded, both⟩ := Option.map_eq_some_iff.mp opened
  obtain ⟨fits, saved⟩ := Prod.mk.inj both
  exact absurd (saved.symm.trans (all _ e loaded fits)) (by decide)

end RPCortex.Edit
