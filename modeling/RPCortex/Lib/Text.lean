import Mathlib

/-! Texts of lines.  `splitLines` cuts a text at its line ends, `unlines` puts lines together again,
and `cutAt` cuts a line at the first occurrence of a separator. -/

namespace RPCortex.Lib

variable {α : Type*} {nl sep : α} {line text : List α} {lines : List (List α)}

/-- Lines put together, each followed by a line end. -/
def unlines (nl : α) (lines : List (List α)) : List α := lines.flatMap fun line => line ++ [nl]

@[simp] theorem unlines_nil : unlines nl [] = [] := rfl

@[simp] theorem unlines_cons : unlines nl (line :: lines) = line ++ nl :: unlines nl lines := by
  simp [unlines]

/-- The bytes of a string literal. -/
def ascii (s : String) : List UInt8 := s.toList.map fun c => c.toNat.toUInt8

variable [DecidableEq α]

/-- The lines of a text; a last line without its line end counts. -/
def splitLines (nl : α) : List α → List (List α)
  | [] => []
  | c :: rest =>
    if c = nl then [] :: splitLines nl rest
    else
      match splitLines nl rest with
      | [] => [[c]]
      | line :: lines => (c :: line) :: lines

@[simp] theorem splitLines_nil (nl : α) : splitLines nl [] = [] := rfl

theorem splitLines_cons (nl c : α) (rest : List α) : splitLines nl (c :: rest) =
    if c = nl then [] :: splitLines nl rest
    else
      match splitLines nl rest with
      | [] => [[c]]
      | line :: lines => (c :: line) :: lines := rfl

theorem splitLines_append (h : nl ∉ line) :
    splitLines nl (line ++ nl :: text) = line :: splitLines nl text := by
  induction line with
  | nil => simp [splitLines_cons]
  | cons c line ih =>
    rw [List.mem_cons, not_or] at h
    rw [List.cons_append, splitLines_cons, if_neg (Ne.symm h.1), ih h.2]

/-- A line without its line end. -/
theorem splitLines_last (h : nl ∉ line) (ne : line ≠ []) : splitLines nl line = [line] := by
  induction line with
  | nil => exact absurd rfl ne
  | cons c line ih =>
    rw [List.mem_cons, not_or] at h
    rw [splitLines_cons, if_neg (Ne.symm h.1)]
    cases line with
    | nil => rfl
    | cons d line => rw [ih h.2 (by simp)]

/-- Lines put together come apart again. -/
theorem splitLines_unlines (h : ∀ line ∈ lines, nl ∉ line) :
    splitLines nl (unlines nl lines) = lines := by
  induction lines with
  | nil => rfl
  | cons line lines ih =>
    rw [unlines_cons, splitLines_append (h line (by simp)), ih fun l hl => h l (by simp [hl])]

/-- So do lines whose last line end is missing. -/
theorem splitLines_unlines_dropLast (h : ∀ line ∈ lines, nl ∉ line)
    (ne : ∀ line ∈ lines, line ≠ []) :
    splitLines nl (unlines nl lines).dropLast = lines := by
  induction lines with
  | nil => rfl
  | cons line lines ih =>
    have hline := h line (by simp)
    cases hl : lines with
    | nil =>
      have : (unlines nl [line]).dropLast = line := by simp
      rw [this]
      exact splitLines_last hline (ne line (by simp))
    | cons next rest =>
      rw [← hl]
      have some : nl :: unlines nl lines ≠ [] := by simp
      have more : unlines nl lines ≠ [] := by simp [hl]
      rw [unlines_cons, List.dropLast_append_of_ne_nil some, List.dropLast_cons_of_ne_nil more,
        splitLines_append hline, ih (fun l hl => h l (by simp [hl]))
          fun l hl => ne l (by simp [hl])]

/-- What stands in front of a line end does not change the lines behind it. -/
theorem splitLines_behind (nl : α) (before text : List α) :
    ∃ first lines, splitLines nl (before ++ nl :: text) = first :: lines ++ splitLines nl text := by
  induction before with
  | nil => exact ⟨[], [], by simp [splitLines_cons]⟩
  | cons c before ih =>
    obtain ⟨first, lines, eq⟩ := ih
    rw [List.cons_append, splitLines_cons, eq]
    split
    · exact ⟨[], first :: lines, rfl⟩
    · exact ⟨c :: first, lines, rfl⟩

theorem notMem_of_mem_splitLines (h : line ∈ splitLines nl text) : nl ∉ line := by
  induction text generalizing line with
  | nil => cases h
  | cons c text ih =>
    rw [splitLines_cons] at h
    split at h
    · rcases List.mem_cons.mp h with rfl | h
      · exact List.not_mem_nil
      · exact ih h
    · rename_i hc
      split at h
      · obtain rfl := List.mem_singleton.mp h
        simpa using Ne.symm hc
      · rename_i first lines hs
        rcases List.mem_cons.mp h with rfl | h
        · rw [List.mem_cons, not_or]
          exact ⟨Ne.symm hc, ih (by rw [hs]; simp)⟩
        · exact ih (by rw [hs]; simp [h])

/-- The lines of a text are no longer than the text, line ends counted but for the last. -/
theorem sum_length_splitLines (nl : α) (text : List α) :
    ((splitLines nl text).map fun line => line.length + 1).sum ≤ text.length + 1 := by
  have tight : ((splitLines nl text).map fun line => line.length + 1).sum ≤
      text.length + if text = [] then 0 else 1 := by
    induction text with
    | nil => simp
    | cons c text ih =>
      rw [splitLines_cons, if_neg (List.cons_ne_nil c text)]
      split
      · simp only [List.map_cons, List.sum_cons, List.length_nil, List.length_cons]
        split at ih <;> omega
      · split
        · simp
        · rename_i first lines hs
          rw [hs] at ih
          simp only [List.map_cons, List.sum_cons, List.length_cons] at ih ⊢
          split at ih <;> omega
  refine tight.trans ?_
  split <;> omega

/-! ### Fields -/

/-- What stands before and behind the first separator, when there is one. -/
def cutAt (sep : α) : List α → Option (List α × List α)
  | [] => none
  | c :: rest =>
    if c = sep then some ([], rest)
    else match cutAt sep rest with
      | none => none
      | some (before, behind) => some (c :: before, behind)

theorem cutAt_cons (sep c : α) (rest : List α) : cutAt sep (c :: rest) =
    if c = sep then some ([], rest)
    else match cutAt sep rest with
      | none => none
      | some (before, behind) => some (c :: before, behind) := rfl

theorem cutAt_append {before behind : List α} (h : sep ∉ before) :
    cutAt sep (before ++ sep :: behind) = some (before, behind) := by
  induction before with
  | nil => simp [cutAt_cons]
  | cons c before ih =>
    rw [List.mem_cons, not_or] at h
    rw [List.cons_append, cutAt_cons, if_neg (Ne.symm h.1), ih h.2]

theorem cutAt_notMem (h : sep ∉ line) : cutAt sep line = none := by
  induction line with
  | nil => rfl
  | cons c line ih =>
    rw [List.mem_cons, not_or] at h
    rw [cutAt_cons, if_neg (Ne.symm h.1), ih h.2]

theorem notMem_of_cutAt (h : cutAt sep line = none) : sep ∉ line := by
  induction line with
  | nil => exact List.not_mem_nil
  | cons c line ih =>
    rw [cutAt_cons] at h
    split at h
    · cases h
    · rename_i hc
      cases hcut : cutAt sep line with
      | none =>
        rw [List.mem_cons, not_or]
        exact ⟨Ne.symm hc, ih hcut⟩
      | some cut => rw [hcut] at h; cases h

theorem of_cutAt {before behind : List α} (h : cutAt sep line = some (before, behind)) :
    line = before ++ sep :: behind ∧ sep ∉ before := by
  induction line generalizing before with
  | nil => cases h
  | cons c line ih =>
    rw [cutAt_cons] at h
    split at h
    · rename_i hc
      obtain ⟨rfl, rfl⟩ := by simpa using h
      exact ⟨by rw [hc]; rfl, by simp⟩
    · rename_i hc
      cases hcut : cutAt sep line with
      | none => rw [hcut] at h; cases h
      | some cut =>
        obtain ⟨b, e⟩ := cut
        rw [hcut] at h
        obtain ⟨rfl, rfl⟩ := by simpa using h
        obtain ⟨rfl, hb⟩ := ih hcut
        refine ⟨rfl, ?_⟩
        rw [List.mem_cons, not_or]
        exact ⟨Ne.symm hc, hb⟩

/-- A text is cut into the part in front of its first separator and the parts behind it. -/
theorem splitOn_cut : text.splitOn sep = text.takeWhile (· ≠ sep) ::
    if text.dropWhile (· ≠ sep) = [] then [] else ((text.dropWhile (· ≠ sep)).drop 1).splitOn sep := by
  have free : sep ∉ text.takeWhile (· ≠ sep) := fun mem => by simpa using List.mem_takeWhile_imp mem
  conv_lhs => rw [← List.takeWhile_append_dropWhile (p := (· ≠ sep)) (l := text)]
  have stops := List.head?_dropWhile_not (fun c => decide (c ≠ sep)) text
  cases behind : text.dropWhile (· ≠ sep) with
  | nil => rw [List.append_nil, List.splitOn_eq_singleton free, if_pos rfl]
  | cons c rest =>
    rw [behind] at stops
    obtain rfl : c = sep := by simpa using stops
    rw [List.splitOn_append_cons_self, List.splitOn_eq_singleton free, if_neg (List.cons_ne_nil _ _)]
    rfl

end RPCortex.Lib
