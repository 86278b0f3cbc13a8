import RPCortex.Lib.Text
import RPCortex.Fat12.Volume

/-! Tab completion: the candidates of `shell.cpp` and the Tab of `lineedit.cpp`, which replaces the word before the
cursor by what the candidates share. -/

namespace RPCortex.Console

open Lib Fat12

/-- `COMP_MAX`. -/
def compMax : Nat := 16

/-- `COMP_LEN`. -/
def compLen : Nat := 96

/-- Names and lines, without their NULs. -/
abbrev Chars := List UInt8

/-! ### Candidates -/

/-- `prefix_matches`. -/
def prefixMatches : (name : Chars) → (typed : Chars) → Bool
  | _, [] => true
  | [], _ :: _ => false
  | a :: name, b :: typed => if toLower a ≠ toLower b then false else prefixMatches name typed

/-- What a name is offered as: quoted when it has a space, and cut to the buffer. -/
def offered (name : Chars) (isDir : Bool) (cap : Nat) : Chars :=
  let tail := if isDir then [0x2F] else []
  (if 0x20 ∈ name then [0x22] ++ name ++ tail ++ [0x22] else name ++ tail).take (cap - 1)

/-- `CompleteWalk`, with the text in `out` when one was found. -/
structure CompleteWalk where
  typed : Chars
  want : Nat
  seen : Nat
  found : Option Chars

/-- `complete_offer`. -/
def completeOffer (cap : Nat) (w : CompleteWalk) (entry : Chars × Bool) : CompleteWalk :=
  if w.found.isSome then w
  else if !prefixMatches entry.1 w.typed then w
  else if w.seen ≠ w.want then { w with seen := w.seen + 1 }
  else { w with seen := w.seen + 1, found := some (offered entry.1 entry.2 cap) }

/-- What the names are taken from: the commands and aliases, and the entries of the directory that the typed part
before the last `/` names, of the current one without it. -/
structure Names where
  commands : List Chars
  aliases : List Chars
  entries : Option Chars → List (Chars × Bool)

/-- A word at its last `/`: the directory as it is resolved, and what is behind it. -/
def splitDir (word : Chars) : Option Chars × Chars :=
  match cutAt 0x2F word.reverse with
  | none => (none, word)
  | some (name, head) => (some (if head = [] then [0x2F] else head.reverse), name.reverse)

/-- `shell_complete`. -/
def shellComplete (names : Names) (typed : Chars) (wordStart index cap : Nat) : Option Chars :=
  if wordStart = 0 then
    ((names.commands ++ names.aliases).map (·, false)).foldl (completeOffer cap) ⟨typed, index, 0, none⟩ |>.found
  else
    (names.entries (splitDir typed).1).foldl (completeOffer cap) ⟨(splitDir typed).2, index, 0, none⟩ |>.found

/-- The candidates that `line_edit` collects, at most `n` from the index on. -/
def collect (complete : Nat → Option Chars) : (n : Nat) → (index : Nat) → List Chars
  | 0, _ => []
  | n + 1, index =>
    match complete index with
    | none => []
    | some text => text :: collect complete n (index + 1)

/-! ### The line -/

/-- `line_word_start`: the gap before the cursor is skipped, then the word. -/
def lineWordStart (line : Chars) (pos : Nat) : Nat :=
  let before := (line.take pos).reverse
  let word := before.dropWhile fun c => c = 0x20
  (word.dropWhile fun c => c ≠ 0x20).length

/-- `line_insert`. -/
def lineInsert (line : Chars) (cap pos : Nat) (c : UInt8) : Chars :=
  if cap ≤ line.length + 1 then line else line.take pos ++ c :: line.drop pos

/-- The loop that inserts the common part, with the position behind it. -/
def insertAll (cap : Nat) : (line : Chars) → (pos : Nat) → (text : Chars) → Chars × Nat
  | line, pos, [] => (line, pos)
  | line, pos, c :: text =>
    if line.length + 1 < cap then insertAll cap (lineInsert line cap pos c) (pos + 1) text else (line, pos)

/-- `line_common_prefix` of a first candidate and the others. -/
def lineCommonPrefix : (first : Chars) → (others : List Chars) → Chars
  | [], _ => []
  | c :: first, others =>
    if others.all fun o => o.head? = some c then c :: lineCommonPrefix first (others.map List.tail) else []

/-- The Tab of `line_edit`, with the line and the cursor after it. -/
def tab (complete : (typed : Chars) → (wordStart index cap : Nat) → Option Chars) (cap : Nat) (line : Chars) (pos : Nat) :
    Chars × Nat :=
  let ws := lineWordStart line pos
  let plen := min (pos - ws) (compLen - 1)
  let typed := (line.drop ws).take plen
  match collect (fun index => complete typed ws index compLen) compMax 0 with
  | [] => (line, pos)
  | first :: others =>
    let common := (lineCommonPrefix first others).take (compLen - 1)
    if common = typed then (line, pos)
    else
      -- the bytes behind the cursor move down to the word's start, over what was there
      let moved := line.take ws ++ line.drop pos ++ line.drop (ws + (line.length - pos))
      let (line, pos) := insertAll cap (moved.take (line.length - plen)) ws common
      if others = [] ∧ line.length + 1 < cap ∧ (pos = line.length ∨ line.getD pos 0 ≠ 0x20) then
        (lineInsert line cap pos 0x20, pos + 1)
      else (line, pos)

/-! ### What is kept -/

/-- The text still denotes the typed word: the word is a prefix of it in some case, behind an opening quote or not. -/
def Denotes (word text : Chars) : Prop :=
  prefixMatches text word = true ∨ ∃ quoted, text = 0x22 :: quoted ∧ prefixMatches quoted word = true

/-- The line is the old one with the word before the cursor replaced by a text that denotes it, and the cursor stands
behind that text. -/
def Kept (line : Chars) (pos : Nat) (after : Chars × Nat) : Prop :=
  ∃ text, after = (line.take (lineWordStart line pos) ++ text ++ line.drop pos, lineWordStart line pos + text.length) ∧
    Denotes ((line.drop (lineWordStart line pos)).take (pos - lineWordStart line pos)) text

/-- The word before the cursor, with the gap behind it. -/
def wordAt (line : Chars) (pos : Nat) : Chars := (line.drop (lineWordStart line pos)).take (pos - lineWordStart line pos)

/-- The candidates that a Tab collects. -/
def candidates (names : Names) (line : Chars) (pos : Nat) : List Chars :=
  collect (fun index => shellComplete names ((wordAt line pos).take (compLen - 1)) (lineWordStart line pos) index compLen)
    compMax 0

/-- The names that match the typed word, from the commands for the first word and else from the directory's entries. -/
def matching (names : Names) (line : Chars) (pos : Nat) : List (Chars × Bool) :=
  let typed := (wordAt line pos).take (compLen - 1)
  if lineWordStart line pos = 0 then
    ((names.commands ++ names.aliases).map (·, false)).filter fun entry => prefixMatches entry.1 typed
  else (names.entries (splitDir typed).1).filter fun entry => prefixMatches entry.1 (splitDir typed).2

/-- The texts of the first names that match. -/
def offers (names : Names) (line : Chars) (pos : Nat) : List Chars :=
  ((matching names line pos).take compMax).map fun entry => offered entry.1 entry.2 compLen

/-- What one candidate puts into the line: a single one is followed by a space, unless there is one. -/
def placed (rest : Chars) (cands : List Chars) (c : Chars) : Chars :=
  if cands.length = 1 ∧ rest.head? ≠ some 0x20 then c ++ [0x20] else c

/-- The candidates begin with one spelling of the typed word, behind an opening quote all or none, and the line has room
for the quote; a word that is longer than a candidate can be is spelled as it was. -/
def Agreeing (cap : Nat) (line : Chars) (pos : Nat) (cands : List Chars) : Prop :=
  cands = [] ∨
  (wordAt line pos).length < compLen ∧ (∃ lead spelled, (lead = [] ∨ lead = [0x22]) ∧
    spelled.length = (wordAt line pos).length ∧ prefixMatches spelled (wordAt line pos) = true ∧
    line.length + lead.length < cap ∧ ∀ c ∈ cands, lead ++ spelled <+: placed (line.drop pos) cands c) ∨
  compLen ≤ (wordAt line pos).length ∧ ∀ c ∈ cands, c = (wordAt line pos).take (compLen - 1)

/-! ### Prefixes -/

variable {line text name typed word first c : Chars} {others cands : List Chars} {cap pos ws : Nat} {names : Names}

theorem prefixMatches_self (word : Chars) : prefixMatches word word = true := by
  induction word with
  | nil => rfl
  | cons c word ih =>
    rw [prefixMatches, if_neg (not_not.mpr rfl)]
    exact ih

/-- A name matches in its first letters. -/
theorem prefixMatches_iff : prefixMatches name word = true ↔
    ∃ spelled, spelled.length = word.length ∧ prefixMatches spelled word = true ∧ spelled <+: name := by
  induction word generalizing name with
  | nil => exact ⟨fun _ => ⟨[], rfl, rfl, List.nil_prefix⟩, fun _ => by cases name <;> rfl⟩
  | cons b word ih =>
    cases name with
    | nil =>
      constructor
      · intro no
        cases no
      · rintro ⟨spelled, length, -, pre⟩
        rw [List.prefix_nil.mp pre] at length
        cases length
    | cons a name =>
      rw [prefixMatches]
      constructor
      · intro matched
        split at matched
        · cases matched
        rename_i same
        obtain ⟨spelled, length, same', pre⟩ := ih.mp matched
        refine ⟨a :: spelled, by simp [length], ?_, List.cons_prefix_cons.mpr ⟨rfl, pre⟩⟩
        rw [prefixMatches, if_neg same]
        exact same'
      · rintro ⟨spelled, length, matched, pre⟩
        cases spelled with
        | nil => cases length
        | cons s spelled =>
          obtain ⟨rfl, tail⟩ := List.cons_prefix_cons.mp pre
          rw [prefixMatches] at matched
          split at matched
          · cases matched
          rename_i same
          rw [if_neg same]
          exact ih.mpr ⟨spelled, Nat.succ.inj length, matched, tail⟩

/-- A text that is cut to some room denotes the word when the word's part of it has room. -/
theorem denotes_take_iff {room : Nat} : Denotes word (text.take room) ↔
    ∃ lead spelled, (lead = [] ∨ lead = [0x22]) ∧ spelled.length = word.length ∧ prefixMatches spelled word = true ∧
      lead.length + word.length ≤ room ∧ lead ++ spelled <+: text := by
  have cut {s : Chars} : s <+: text.take room ↔ s.length ≤ room ∧ s <+: text := by
    rw [List.prefix_take_iff]
    exact and_comm
  constructor
  · rintro (matched | ⟨quoted, eq, matched⟩)
    · obtain ⟨spelled, length, same, pre⟩ := prefixMatches_iff.mp matched
      obtain ⟨short, pre⟩ := cut.mp pre
      exact ⟨[], spelled, .inl rfl, length, same, by simpa [length] using short, pre⟩
    · obtain ⟨spelled, length, same, pre⟩ := prefixMatches_iff.mp matched
      have whole : [0x22] ++ spelled <+: text.take room := by
        rw [eq]
        exact List.cons_prefix_cons.mpr ⟨rfl, pre⟩
      obtain ⟨short, pre⟩ := cut.mp whole
      exact ⟨[0x22], spelled, .inr rfl, length, same, by simpa [length, Nat.add_comm] using short, pre⟩
  · rintro ⟨lead, spelled, rfl | rfl, length, same, short, pre⟩
    · exact .inl (prefixMatches_iff.mpr ⟨spelled, length, same, cut.mpr ⟨by simpa [length] using short, pre⟩⟩)
    · have whole : [0x22] ++ spelled <+: text.take room := cut.mpr ⟨by simpa [length, Nat.add_comm] using short, pre⟩
      obtain ⟨quoted, eq⟩ := whole
      refine .inr ⟨spelled ++ quoted, by rw [← eq]; rfl, prefixMatches_iff.mpr ⟨spelled, length, same, ?_⟩⟩
      exact List.prefix_append _ _

/-- What is shared begins every candidate, and what begins every candidate is shared. -/
theorem prefix_lineCommonPrefix : text <+: lineCommonPrefix first others ↔ ∀ c ∈ first :: others, text <+: c := by
  induction first generalizing text others with
  | nil =>
    rw [lineCommonPrefix]
    constructor
    · intro pre c _
      rw [List.prefix_nil.mp pre]
      exact List.nil_prefix
    · exact fun all => all [] (by simp)
  | cons a first ih =>
    cases text with
    | nil => exact ⟨fun _ _ _ => List.nil_prefix, fun _ => List.nil_prefix⟩
    | cons b text =>
      rw [lineCommonPrefix]
      constructor
      · intro pre
        split at pre
        · rename_i heads
          obtain ⟨rfl, rest⟩ := List.cons_prefix_cons.mp pre
          have tails := ih.mp rest
          intro c mem
          rcases List.mem_cons.mp mem with rfl | mem
          · exact List.cons_prefix_cons.mpr ⟨rfl, tails first (by simp)⟩
          · have head := of_decide_eq_true (List.all_eq_true.mp heads c mem)
            obtain ⟨tail, rfl⟩ := List.head?_eq_some_iff.mp head
            exact List.cons_prefix_cons.mpr ⟨rfl, tails tail (by
              refine List.mem_cons_of_mem _ (List.mem_map.mpr ⟨_, mem, rfl⟩))⟩
        · cases List.prefix_nil.mp pre
      · intro all
        obtain ⟨rfl, pre⟩ := List.cons_prefix_cons.mp (all (a :: first) (by simp))
        have heads : (others.all fun o => o.head? = some b) = true := by
          refine List.all_eq_true.mpr fun o mem => decide_eq_true ?_
          obtain ⟨rest, rfl⟩ := all o (by simp [mem])
          rfl
        rw [if_pos heads]
        refine List.cons_prefix_cons.mpr ⟨rfl, ih.mpr fun c mem => ?_⟩
        rcases List.mem_cons.mp mem with rfl | mem
        · exact pre
        · obtain ⟨o, other, rfl⟩ := List.mem_map.mp mem
          obtain ⟨rest, rfl⟩ := all o (List.mem_cons_of_mem _ other)
          exact List.prefix_append _ _

/-! ### What is offered -/

theorem completeOffer_found {w : CompleteWalk} {entries : List (Chars × Bool)}
    (short : ∀ t ∈ w.found, t.length ≤ cap - 1) :
    ∀ t ∈ (entries.foldl (completeOffer cap) w).found, t.length ≤ cap - 1 := by
  induction entries generalizing w with
  | nil => exact short
  | cons entry entries ih =>
    rw [List.foldl_cons]
    refine ih ?_
    unfold completeOffer
    split
    · exact short
    split
    · exact short
    split
    · exact short
    · intro t mem
      obtain rfl := Option.mem_some_iff.mp mem
      exact List.length_take_le _ _

theorem length_shellComplete {index : Nat} (found : shellComplete names typed ws index cap = some text) :
    text.length ≤ cap - 1 := by
  unfold shellComplete at found
  split at found
  · exact completeOffer_found (by simp) text found
  · exact completeOffer_found (by simp) text found

theorem mem_collect {complete : Nat → Option Chars} {n index : Nat} (mem : text ∈ collect complete n index) :
    ∃ i, complete i = some text := by
  induction n generalizing index with
  | zero => cases mem
  | succ n ih =>
    rw [collect] at mem
    cases found : complete index with
    | none =>
      rw [found] at mem
      cases mem
    | some t =>
      rw [found] at mem
      rcases List.mem_cons.mp mem with rfl | mem
      · exact ⟨index, found⟩
      · exact ih mem

theorem length_candidates (mem : c ∈ candidates names line pos) : c.length ≤ compLen - 1 := by
  obtain ⟨i, found⟩ := mem_collect mem
  exact length_shellComplete found

theorem foldl_found {w : CompleteWalk} (found : w.found.isSome = true) (entries : List (Chars × Bool)) :
    entries.foldl (completeOffer cap) w = w := by
  induction entries with
  | nil => rfl
  | cons entry entries ih =>
    rw [List.foldl_cons, completeOffer, if_pos found]
    exact ih

/-- The walk finds the wanted one of the names that match. -/
theorem foldl_completeOffer {w : CompleteWalk} (unfound : w.found = none) (before : w.seen ≤ w.want)
    (entries : List (Chars × Bool)) :
    (entries.foldl (completeOffer cap) w).found =
      ((entries.filter fun entry => prefixMatches entry.1 w.typed)[w.want - w.seen]?).map fun entry =>
        offered entry.1 entry.2 cap := by
  induction entries generalizing w with
  | nil => exact unfound
  | cons entry entries ih =>
    rw [List.foldl_cons, completeOffer, if_neg (by simp [unfound])]
    by_cases matched : prefixMatches entry.1 w.typed = true
    · rw [if_neg (by simp [matched]), List.filter_cons_of_pos (by exact matched)]
      by_cases more : w.seen ≠ w.want
      · rw [if_pos more, ih (w := { w with seen := w.seen + 1 }) unfound (Nat.lt_of_le_of_ne before more)]
        rw [show w.want - w.seen = w.want - (w.seen + 1) + 1 by omega, List.getElem?_cons_succ]
      · rw [if_neg more, foldl_found (by rfl)]
        rw [not_not.mp more, Nat.sub_self, List.getElem?_cons_zero]
        rfl
    · rw [if_pos (by simp [matched]), List.filter_cons_of_neg (by exact matched), ih unfound before]

/-- Counting up until nothing is found collects the list. -/
theorem collect_eq {α : Type} (found : List α) (text : α → Chars) {complete : Nat → Option Chars}
    (complete_eq : ∀ index, complete index = (found[index]?).map text) (n index : Nat) :
    collect complete n index = ((found.drop index).take n).map text := by
  induction n generalizing index with
  | zero => rfl
  | succ n ih =>
    rw [collect, complete_eq]
    cases next : found[index]? with
    | none =>
      have behind := List.getElem?_eq_none_iff.mp next
      rw [List.drop_of_length_le behind]
      rfl
    | some c =>
      obtain ⟨inside, rfl⟩ := List.getElem?_eq_some_iff.mp next
      rw [List.drop_eq_getElem_cons inside, List.take_succ_cons, List.map_cons, ← ih (index + 1)]
      rfl

/-- A Tab collects the names that match. -/
theorem candidates_eq (names : Names) (line : Chars) (pos : Nat) : candidates names line pos = offers names line pos := by
  rw [candidates, offers, collect_eq (matching names line pos) fun entry => offered entry.1 entry.2 compLen,
    List.drop_zero]
  intro index
  rw [shellComplete, matching]
  split
  · rw [foldl_completeOffer rfl (Nat.zero_le _), Nat.sub_zero]
  · rw [foldl_completeOffer rfl (Nat.zero_le _), Nat.sub_zero]

/-! ### The line -/

theorem lineWordStart_le (line : Chars) (pos : Nat) : lineWordStart line pos ≤ pos := by
  unfold lineWordStart
  refine (List.length_dropWhile_le _ _).trans ((List.length_dropWhile_le _ _).trans ?_)
  rw [List.length_reverse]
  exact List.length_take_le _ _

theorem insertAll_eq (inside : pos ≤ line.length) :
    insertAll cap line pos text = (line.take pos ++ text.take (cap - 1 - line.length) ++ line.drop pos,
      pos + min text.length (cap - 1 - line.length)) := by
  induction text generalizing line pos with
  | nil => simp [insertAll]
  | cons c text ih =>
    rw [insertAll]
    split
    · rename_i room
      have full : ¬cap ≤ line.length + 1 := by omega
      obtain ⟨k, hk⟩ : ∃ k, cap - 1 - line.length = k + 1 := ⟨cap - 1 - line.length - 1, by omega⟩
      have inserted : lineInsert line cap pos c = line.take pos ++ c :: line.drop pos := if_neg full
      have length : (lineInsert line cap pos c).length = line.length + 1 := by
        rw [inserted]
        simp
        omega
      have left : (line.take pos).length = pos := List.length_take_of_le inside
      have first : (lineInsert line cap pos c).take (pos + 1) = line.take pos ++ [c] := by
        rw [inserted, List.take_append, left]
        simp
      have behind : (lineInsert line cap pos c).drop (pos + 1) = line.drop pos := by
        rw [inserted, List.drop_append, left]
        simp
      rw [ih (by omega), length, first, behind, hk, show cap - 1 - (line.length + 1) = k by omega]
      simp
      omega
    · rename_i full
      have none_ : cap - 1 - line.length = 0 := by omega
      simp [none_]

theorem wordAt_length (inside : pos ≤ line.length) :
    (wordAt line pos).length = pos - lineWordStart line pos := by
  have le := lineWordStart_le line pos
  rw [wordAt, List.length_take, List.length_drop]
  omega

/-- A line is what is before the word, the word and what is behind the cursor. -/
theorem line_parts (line : Chars) (pos : Nat) :
    line.take (lineWordStart line pos) ++ wordAt line pos ++ line.drop pos = line := by
  have le := lineWordStart_le line pos
  have behind : line.drop pos = (line.drop (lineWordStart line pos)).drop (pos - lineWordStart line pos) := by
    rw [List.drop_drop, Nat.add_sub_cancel' le]
  rw [wordAt, List.append_assoc, behind, List.take_append_drop, List.take_append_drop]

/-- What the candidates put into the line before it is full. -/
def joint (rest : Chars) (first : Chars) (others : List Chars) : Chars :=
  if others = [] then placed rest [first] first else lineCommonPrefix first others

theorem prefix_joint {rest : Chars} : text <+: joint rest first others ↔
    ∀ c ∈ first :: others, text <+: placed rest (first :: others) c := by
  rw [joint]
  by_cases single : others = []
  · subst single
    rw [if_pos rfl]
    simp
  · rw [if_neg single, prefix_lineCommonPrefix]
    have same : ∀ c, placed rest (first :: others) c = c := by
      intro c
      have many : ¬((first :: others).length = 1 ∧ rest.head? ≠ some 0x20) := by
        rintro ⟨one, -⟩
        rw [List.length_cons] at one
        exact single (List.length_eq_zero_iff.mp (by omega))
      rw [placed, if_neg many]
    simp only [same]

theorem typed_eq (line : Chars) (pos : Nat) :
    (line.drop (lineWordStart line pos)).take (min (pos - lineWordStart line pos) (compLen - 1)) =
      (wordAt line pos).take (compLen - 1) := by
  rw [wordAt, List.take_take, Nat.min_comm]

/-- What stands in the line when the typed word has been taken out and the common part put in. -/
def replaced (cap : Nat) (line : Chars) (pos plen : Nat) (common : Chars) : Chars × Nat :=
  insertAll cap ((line.take (lineWordStart line pos) ++ line.drop pos ++
    line.drop (lineWordStart line pos + (line.length - pos))).take (line.length - plen)) (lineWordStart line pos) common

/-- The space behind a single candidate. -/
def spaced (cap : Nat) (others : List Chars) (r : Chars × Nat) : Chars × Nat :=
  if others = [] ∧ r.1.length + 1 < cap ∧ (r.2 = r.1.length ∨ r.1.getD r.2 0 ≠ 0x20) then
    (lineInsert r.1 cap r.2 0x20, r.2 + 1)
  else r

theorem tab_cons (found : candidates names line pos = first :: others) :
    tab (shellComplete names) cap line pos =
      if (lineCommonPrefix first others).take (compLen - 1) = (wordAt line pos).take (compLen - 1) then (line, pos)
      else spaced cap others (replaced cap line pos (min (pos - lineWordStart line pos) (compLen - 1))
        ((lineCommonPrefix first others).take (compLen - 1))) := by
  have found' : collect (fun index => shellComplete names ((line.drop (lineWordStart line pos)).take
      (min (pos - lineWordStart line pos) (compLen - 1))) (lineWordStart line pos) index compLen) compMax 0 =
      first :: others := by
    rw [typed_eq]
    exact found
  unfold tab
  dsimp only
  rw [found']
  dsimp only
  rw [typed_eq]
  rfl

theorem tab_nil (found : candidates names line pos = []) : tab (shellComplete names) cap line pos = (line, pos) := by
  have found' : collect (fun index => shellComplete names ((line.drop (lineWordStart line pos)).take
      (min (pos - lineWordStart line pos) (compLen - 1))) (lineWordStart line pos) index compLen) compMax 0 = [] := by
    rw [typed_eq]
    exact found
  unfold tab
  dsimp only
  rw [found']

theorem length_lineCommonPrefix (first : Chars) (others : List Chars) :
    (lineCommonPrefix first others).length ≤ first.length :=
  (prefix_lineCommonPrefix.mp List.prefix_rfl first (by simp)).length_le

theorem lineCommonPrefix_single (first : Chars) : lineCommonPrefix first [] = first := by
  refine (prefix_lineCommonPrefix.mp List.prefix_rfl first (by simp)).eq_of_length_le ?_
  exact (prefix_lineCommonPrefix.mpr fun c mem => by rw [List.mem_singleton.mp mem]).length_le

/-- A word that is not too long leaves with no trace. -/
theorem replaced_eq (inside : pos ≤ line.length) (common : Chars) :
    replaced cap line pos (wordAt line pos).length common =
      (line.take (lineWordStart line pos) ++
        common.take (cap - 1 - (line.length - (wordAt line pos).length)) ++ line.drop pos,
      lineWordStart line pos + (common.take (cap - 1 - (line.length - (wordAt line pos).length))).length) := by
  have le := lineWordStart_le line pos
  have length := wordAt_length inside
  have kept : (line.take (lineWordStart line pos) ++ line.drop pos ++
      line.drop (lineWordStart line pos + (line.length - pos))).take (line.length - (wordAt line pos).length) =
      line.take (lineWordStart line pos) ++ line.drop pos := by
    refine List.take_left' ?_
    rw [List.length_append, List.length_take, List.length_drop]
    omega
  have left : (line.take (lineWordStart line pos)).length = lineWordStart line pos := by
    rw [List.length_take]
    omega
  have size : (line.take (lineWordStart line pos) ++ line.drop pos).length =
      line.length - (wordAt line pos).length := by
    rw [List.length_append, left, List.length_drop]
    omega
  rw [replaced, kept, insertAll_eq (by rw [List.length_append, left]; omega), size, List.take_left' left,
    List.drop_left' left, List.length_take, Nat.min_comm]

/-- A text that is put in, with a space behind it if it is the only one and no space follows. -/
def ended (rest : Chars) (others : List Chars) (text : Chars) : Chars :=
  if others = [] ∧ rest.head? ≠ some 0x20 then text ++ [0x20] else text

/-- The line with the word before the cursor replaced by as much of a text as there is room for, and the cursor behind
it. -/
def replacing (cap : Nat) (line : Chars) (pos : Nat) (text : Chars) : Chars × Nat :=
  let text := text.take (cap - 1 - (line.length - (wordAt line pos).length))
  (line.take (lineWordStart line pos) ++ text ++ line.drop pos, lineWordStart line pos + text.length)

/-- The replacement of a word that is not too long. -/
theorem spaced_replaced (inside : pos ≤ line.length) (fits : line.length < cap) (first : Chars) (others : List Chars) :
    spaced cap others (replaced cap line pos (wordAt line pos).length first) =
      replacing cap line pos (ended (line.drop pos) others first) := by
  have le := lineWordStart_le line pos
  have length := wordAt_length inside
  rw [replaced_eq inside, replacing]
  generalize hroom : cap - 1 - (line.length - (wordAt line pos).length) = room
  have left : (line.take (lineWordStart line pos)).length = lineWordStart line pos := by
    rw [List.length_take]
    omega
  by_cases single : others = []
  · subst single
    have size : (line.take (lineWordStart line pos) ++ first.take room ++ line.drop pos).length =
        line.length - (wordAt line pos).length + min room first.length := by
      rw [List.length_append, List.length_append, left, List.length_take, List.length_drop]
      omega
    have behind : (line.take (lineWordStart line pos) ++ first.take room ++ line.drop pos).getD
        (lineWordStart line pos + (first.take room).length) 0 = (line.drop pos).getD 0 0 := by
      rw [List.getD_append_right _ _ _ _ (by rw [List.length_append, left]), List.length_append, left, Nat.sub_self]
    have next : (line.drop pos).head? ≠ some 0x20 ↔ (line.drop pos).getD 0 0 ≠ 0x20 := by
      cases line.drop pos with
      | nil => simp
      | cons c rest => simp
    unfold spaced
    dsimp only
    rw [size, behind]
    by_cases gap : (line.drop pos).head? = some 0x20
    · have some_ : (line.drop pos).getD 0 0 = 0x20 := not_not.mp fun no => next.mpr no gap
      have pos_lt : 0 < (line.drop pos).length := by
        rw [List.length_pos_iff]
        intro empty
        rw [empty] at gap
        cases gap
      rw [List.length_drop] at pos_lt
      have text : ended (line.drop pos) [] first = first := if_neg fun both => both.2 gap
      rw [text, if_neg]
      rintro ⟨-, -, last | no⟩
      · rw [List.length_take] at last
        omega
      · exact no some_
    · have text : ended (line.drop pos) [] first = first ++ [0x20] := if_pos ⟨rfl, gap⟩
      rw [text]
      by_cases more : line.length - (wordAt line pos).length + min room first.length + 1 < cap
      · have whole : first.length < room := by omega
        have all : first.take room = first := List.take_of_length_le whole.le
        have all' : (first ++ [0x20]).take room = first ++ [0x20] := by
          refine List.take_of_length_le ?_
          rw [List.length_append, List.length_singleton]
          omega
        have notFull : ¬cap ≤ (line.take (lineWordStart line pos) ++ first ++ line.drop pos).length + 1 := by
          rw [all] at size
          rw [size]
          omega
        have upTo : (line.take (lineWordStart line pos) ++ first).length = lineWordStart line pos + first.length := by
          rw [List.length_append, left]
        rw [if_pos ⟨rfl, more, .inr (next.mp gap)⟩, all, all', lineInsert, if_neg notFull, List.take_left' upTo,
          List.drop_left' upTo]
        simp [Nat.add_assoc]
      · have cut : (first ++ [0x20]).take room = first.take room := by
          rw [List.take_append, show room - first.length = 0 by omega, List.take_zero, List.append_nil]
        rw [if_neg fun both => more both.2.1, cut]
  · have text : ended (line.drop pos) others first = first := if_neg fun both => single both.1
    rw [text, spaced, if_neg fun both => single both.1]

theorem ended_eq_joint (rest first : Chars) (others : List Chars) :
    ended rest others (lineCommonPrefix first others) = joint rest first others := by
  unfold ended joint
  by_cases single : others = []
  · subst single
    simp [lineCommonPrefix_single, placed]
  · rw [if_neg fun both => single both.1, if_neg single]

/-- A text of the length of the replacement is the replacement. -/
theorem kept_of_eq {text : Chars} :
    Kept line pos (line.take (lineWordStart line pos) ++ text ++ line.drop pos, lineWordStart line pos + text.length) ↔
      Denotes (wordAt line pos) text := by
  constructor
  · rintro ⟨text', eq, denotes⟩
    obtain ⟨eq, length⟩ := Prod.mk.inj eq
    have same := List.append_inj_left (List.append_cancel_right eq) rfl
    have text_eq : text = text' := List.append_cancel_left (List.append_cancel_right eq)
    rw [text_eq]
    exact denotes
  · exact fun denotes => ⟨text, rfl, denotes⟩

theorem kept_self (inside : pos ≤ line.length) : Kept line pos (line, pos) := by
  have le := lineWordStart_le line pos
  refine ⟨wordAt line pos, ?_, .inl (prefixMatches_self _)⟩
  rw [line_parts, wordAt_length inside, Nat.add_sub_cancel' le]

/-- A word that is longer than a candidate leaves bytes behind when it is replaced. -/
theorem not_kept_long (inside : pos ≤ line.length) (fits : line.length < cap) (long : compLen ≤ (wordAt line pos).length)
    (others : List Chars) (common : Chars) :
    ¬Kept line pos (spaced cap others (replaced cap line pos (compLen - 1) common)) := by
  have le := lineWordStart_le line pos
  have length := wordAt_length inside
  have compLen_eq : compLen = 96 := rfl
  have size : ((line.take (lineWordStart line pos) ++ line.drop pos ++
      line.drop (lineWordStart line pos + (line.length - pos))).take (line.length - (compLen - 1))).length =
      line.length - (compLen - 1) := by
    rw [List.length_take, List.length_append, List.length_append, List.length_take, List.length_drop, List.length_drop]
    omega
  have grown : (replaced cap line pos (compLen - 1) common).1.length =
      line.length - (compLen - 1) + ((replaced cap line pos (compLen - 1) common).2 - lineWordStart line pos) ∧
      lineWordStart line pos ≤ (replaced cap line pos (compLen - 1) common).2 := by
    rw [replaced, insertAll_eq (by rw [size]; omega)]
    generalize (line.take (lineWordStart line pos) ++ line.drop pos ++
      line.drop (lineWordStart line pos + (line.length - pos))).take (line.length - (compLen - 1)) = moved at size ⊢
    simp only [List.length_append, List.length_take, List.length_drop, size]
    omega
  have spaced_ : (spaced cap others (replaced cap line pos (compLen - 1) common)).1.length =
      line.length - (compLen - 1) +
        ((spaced cap others (replaced cap line pos (compLen - 1) common)).2 - lineWordStart line pos) ∧
      lineWordStart line pos ≤ (spaced cap others (replaced cap line pos (compLen - 1) common)).2 := by
    unfold spaced
    split
    · rename_i room
      rw [lineInsert, if_neg (by omega)]
      simp only [List.length_append, List.length_cons, List.length_take, List.length_drop]
      omega
    · exact grown
  rintro ⟨text, eq, -⟩
  rw [eq] at spaced_
  simp only [List.length_append, List.length_take, List.length_drop] at spaced_
  omega

/-- After a Tab the word before the cursor still stands in the line exactly when the texts offered for it agree on its
spelling, with room for it. -/
theorem tab_kept_iff (names : Names) (cap : Nat) (line : Chars) (pos : Nat) (inside : pos ≤ line.length)
    (fits : line.length < cap) :
    Kept line pos (tab (shellComplete names) cap line pos) ↔ Agreeing cap line pos (offers names line pos) := by
  rw [← candidates_eq]
  cases found : candidates names line pos with
  | nil =>
    rw [tab_nil found]
    exact ⟨fun _ => .inl rfl, fun _ => kept_self inside⟩
  | cons first others =>
    have le := lineWordStart_le line pos
    have length := wordAt_length inside
    have compLen_eq : compLen = 96 := rfl
    have size (c : Chars) (mem : c ∈ first :: others) : c.length ≤ compLen - 1 :=
      @length_candidates line c pos names (by rw [found]; exact mem)
    have common : (lineCommonPrefix first others).take (compLen - 1) = lineCommonPrefix first others :=
      List.take_of_length_le ((length_lineCommonPrefix first others).trans (size first (by simp)))
    rw [tab_cons found, common]
    by_cases short : (wordAt line pos).length < compLen
    · have whole : (wordAt line pos).take (compLen - 1) = wordAt line pos := List.take_of_length_le (by omega)
      have agree : Agreeing cap line pos (first :: others) ↔ ∃ lead spelled, (lead = [] ∨ lead = [0x22]) ∧
          spelled.length = (wordAt line pos).length ∧ prefixMatches spelled (wordAt line pos) = true ∧
          line.length + lead.length < cap ∧
          ∀ c ∈ first :: others, lead ++ spelled <+: placed (line.drop pos) (first :: others) c := by
        constructor
        · rintro (no | ⟨-, shared⟩ | ⟨long, -⟩)
          · cases no
          · exact shared
          · omega
        · exact fun shared => .inr (.inl ⟨short, shared⟩)
      rw [whole, agree]
      by_cases same : lineCommonPrefix first others = wordAt line pos
      · rw [if_pos same]
        refine ⟨fun _ => ⟨[], wordAt line pos, .inl rfl, rfl, prefixMatches_self _, by simpa using fits, fun c mem => ?_⟩,
          fun _ => kept_self inside⟩
        have pre := prefix_lineCommonPrefix.mp (by rw [same]) c mem
        rw [placed]
        split
        · exact pre.trans (List.prefix_append _ _)
        · exact pre
      · rw [if_neg same, show min (pos - lineWordStart line pos) (compLen - 1) = (wordAt line pos).length by omega,
          spaced_replaced inside fits, ended_eq_joint, replacing, kept_of_eq, denotes_take_iff]
        simp only [prefix_joint]
        refine exists_congr fun lead => exists_congr fun spelled => ?_
        refine and_congr_right fun _ => and_congr_right fun _ => and_congr_right fun _ => and_congr_left fun _ => ?_
        omega
    · have long := Nat.not_lt.mp short
      have agree : Agreeing cap line pos (first :: others) ↔
          ∀ c ∈ first :: others, c = (wordAt line pos).take (compLen - 1) := by
        constructor
        · rintro (no | ⟨short', -⟩ | ⟨-, all⟩)
          · cases no
          · omega
          · exact all
        · exact fun all => .inr (.inr ⟨long, all⟩)
      have cut : ((wordAt line pos).take (compLen - 1)).length = compLen - 1 := by
        rw [List.length_take]
        omega
      rw [agree]
      by_cases same : lineCommonPrefix first others = (wordAt line pos).take (compLen - 1)
      · rw [if_pos same]
        refine ⟨fun _ c mem => ?_, fun _ => kept_self inside⟩
        have pre := prefix_lineCommonPrefix.mp (by rw [same]) c mem
        exact (pre.eq_of_length_le (by rw [cut]; exact size c mem)).symm
      · rw [if_neg same, show min (pos - lineWordStart line pos) (compLen - 1) = compLen - 1 by omega]
        refine ⟨fun kept => absurd kept (not_kept_long inside fits long _ _), fun all => absurd ?_ same⟩
        refine List.IsPrefix.eq_of_length_le ?_ ?_
        · rw [← all first (by simp)]
          exact prefix_lineCommonPrefix.mp List.prefix_rfl first (by simp)
        · have pre : (wordAt line pos).take (compLen - 1) <+: lineCommonPrefix first others :=
            prefix_lineCommonPrefix.mpr fun c mem => by rw [← all c mem]
          exact pre.length_le

/-- Commands, and a directory with one name in it. -/
def someNames : Names where
  commands := [ascii "reboot", ascii "cat"]
  aliases := []
  entries
    | some dir => if dir = ascii "pkg" then [(ascii "greet", false)] else []
    | none => []

theorem tab_kept_iff_command :
    Kept (ascii "REB x") 3 (tab (shellComplete someNames) 128 (ascii "REB x") 3) :=
  (tab_kept_iff someNames 128 (ascii "REB x") 3 (by decide +kernel) (by decide +kernel)).mpr
    (.inr (.inl ⟨by decide +kernel, [], ascii "reb", .inl rfl, by decide +kernel, by decide +kernel, by decide +kernel,
      by decide +kernel⟩))

/-- The directory that was typed is not in the replacement. -/
theorem tab_drops_directory : ¬Kept (ascii "cat pkg/gr") 10 (tab (shellComplete someNames) 128 (ascii "cat pkg/gr") 10) := by
  have after : tab (shellComplete someNames) 128 (ascii "cat pkg/gr") 10 = (ascii "cat greet ", 10) := by decide +kernel
  have start : lineWordStart (ascii "cat pkg/gr") 10 = 4 := by decide +kernel
  rw [after]
  rintro ⟨text, eq, denotes⟩
  rw [start] at eq denotes
  obtain ⟨eq, -⟩ := Prod.mk.inj eq
  have text_eq : text = ascii "greet " := by
    have cut := congrArg (List.drop 4) eq
    rw [List.append_assoc, List.drop_left' (by decide +kernel)] at cut
    rw [show (ascii "cat pkg/gr").drop 10 = [] by decide +kernel, List.append_nil] at cut
    exact cut.symm.trans (by decide +kernel)
  rw [text_eq] at denotes
  rcases denotes with matched | ⟨quoted, lead, -⟩
  · exact absurd matched (by decide +kernel)
  · exact absurd (List.cons.inj lead).1 (by decide +kernel)

end RPCortex.Console
