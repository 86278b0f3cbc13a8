import RPCortex.Package.Index

/-! The index of packages as a map from names to versions, for a buffer of any size.  A text is the lines that a
line end closes and what stands behind the last one, and every operation is a filter of these lines. -/

namespace RPCortex.Package

open Lib

/-- The loop of `pkgindex_has` at the line `p`; a pass goes behind one line end, so there are no more than bytes. -/
def hasLoop (name : List UInt8) : (passes : Nat) → (p : List UInt8) → Bool
  | 0, _ => false
  | passes + 1, p =>
    if p = [] then false
    else if lineIs p name then true
    else
      match cutAt 0x0A p with
      | none => false
      | some (_, rest) => hasLoop name passes rest

/-- `pkgindex_has`. -/
def pkgindexHas (buf name : List UInt8) : Bool := hasLoop name (cstr buf).length (cstr buf)

/-- `pkgindex_add` in a buffer of `cap` bytes, more than the text has. -/
def pkgindexAddIn (cap : Nat) (buf name version : List UInt8) : List UInt8 :=
  let text := pkgindexRemove buf name
  let cut := text ≠ [] ∧ text.getLast? ≠ some 0x0A
  if cut ∧ cap ≤ text.length + 1 then text
  else
    let text := if cut then text ++ [0x0A] else text
    let line := name ++ [0x2C] ++ version ++ [0x0A]
    if cap - text.length ≤ line.length then text else text ++ line

/-! ### Texts -/

variable {α : Type*} [DecidableEq α] {nl : α} {lines : List (List α)} {last : List α}

/-- A text is closed lines and a rest. -/
theorem eq_unlines_append (nl : α) (text : List α) :
    ∃ lines last, (∀ line ∈ lines, nl ∉ line) ∧ nl ∉ last ∧ text = unlines nl lines ++ last := by
  induction text with
  | nil => exact ⟨[], [], by simp, by simp, rfl⟩
  | cons c text ih =>
    obtain ⟨lines, last, plain, rest, rfl⟩ := ih
    by_cases hc : c = nl
    · refine ⟨[] :: lines, last, ?_, rest, ?_⟩
      · intro line mem
        rcases List.mem_cons.mp mem with rfl | mem
        · exact List.not_mem_nil
        · exact plain line mem
      · rw [hc, unlines_cons]
        rfl
    · cases lines with
      | nil => exact ⟨[], c :: last, by simp, by simp [Ne.symm hc, rest], rfl⟩
      | cons line lines =>
        refine ⟨(c :: line) :: lines, last, ?_, rest, ?_⟩
        · intro l mem
          rcases List.mem_cons.mp mem with rfl | mem
          · simpa [Ne.symm hc] using plain line (by simp)
          · exact plain l (by simp [mem])
        · rw [unlines_cons, unlines_cons]
          rfl

/-- The rest as a line, when there is one. -/
def lastLine (last : List α) : List (List α) := if last = [] then [] else [last]

theorem splitLines_unlines_append (plain : ∀ line ∈ lines, nl ∉ line) (rest : nl ∉ last) :
    splitLines nl (unlines nl lines ++ last) = lines ++ lastLine last := by
  induction lines with
  | nil =>
    rw [unlines_nil, List.nil_append, List.nil_append, lastLine]
    split
    · rename_i empty
      rw [empty]
      rfl
    · rename_i ne
      exact splitLines_last rest ne
  | cons line lines ih =>
    rw [unlines_cons, List.append_assoc, List.cons_append, splitLines_append (plain line (by simp)),
      ih fun l mem => plain l (by simp [mem])]
    rfl

/-- The text with its last line closed. -/
def closeLine (text : List UInt8) : List UInt8 :=
  if text ≠ [] ∧ text.getLast? ≠ some 0x0A then text ++ [0x0A] else text

variable {buf name version line : List UInt8} {closed : List (List UInt8)} {rest : List UInt8} {cap : Nat}

theorem getLast?_unlines_append (plain : 0x0A ∉ rest) (ne : rest ≠ []) :
    (unlines 0x0A closed ++ rest).getLast? ≠ some 0x0A := by
  rw [List.getLast?_append_of_ne_nil _ ne]
  exact fun last => plain (List.mem_of_getLast? last)

theorem getLast?_unlines (ne : closed ≠ []) : (unlines (0x0A : UInt8) closed).getLast? = some 0x0A := by
  obtain ⟨lines, line, rfl⟩ := List.eq_nil_or_concat closed |>.resolve_left ne
  simp [unlines]

theorem closeLine_unlines_append (plain : 0x0A ∉ rest) :
    closeLine (unlines 0x0A closed ++ rest) = unlines 0x0A (closed ++ lastLine rest) := by
  rw [closeLine, lastLine]
  by_cases ne : rest = []
  · rw [ne, List.append_nil, if_pos rfl, List.append_nil, if_neg]
    rintro ⟨some_, no⟩
    refine no (getLast?_unlines ?_)
    rintro rfl
    exact some_ rfl
  · rw [if_pos ⟨by simp [ne], getLast?_unlines_append plain ne⟩, if_neg ne]
    simp [unlines]

/-! ### The operations on the lines -/

theorem lineIs_nil : lineIs [] name = false := by
  rw [lineIs, Bool.eq_false_iff]
  intro is_
  have le := (List.isPrefixOf_iff_prefix.mp is_).length_le
  rw [List.length_append, List.length_singleton, List.length_nil] at le
  omega

theorem lineIs_iff : lineIs line name = true ↔ ∃ version, line = name ++ [0x2C] ++ version := by
  rw [lineIs, List.isPrefixOf_iff_prefix]
  exact ⟨fun ⟨version, eq⟩ => ⟨version, eq.symm⟩, fun ⟨version, eq⟩ => ⟨version, eq.symm⟩⟩

theorem filter_lastLine (keep : List UInt8 → Bool) (rest : List UInt8) :
    (lastLine rest).filter keep = lastLine (if keep rest then rest else []) := by
  rw [lastLine]
  by_cases empty : rest = []
  · rw [if_pos empty, empty, ite_self]
    rfl
  · rw [if_neg empty]
    by_cases kept : keep rest
    · rw [if_pos kept, lastLine, if_neg empty, List.filter_cons_of_pos kept]
      rfl
    · rw [if_neg kept, List.filter_cons_of_neg kept]
      rfl

theorem pkgindexRemove_view (text : cstr buf = unlines 0x0A closed ++ rest)
    (plain : ∀ line ∈ closed, 0x0A ∉ line) (open_ : 0x0A ∉ rest) :
    pkgindexRemove buf name = unlines 0x0A (closed.filter fun line => !lineIs line name) ++
      if !lineIs rest name then rest else [] := by
  simp only [pkgindexRemove, text, splitLines_unlines_append plain open_]
  by_cases empty : rest = []
  · subst empty
    rw [lastLine, if_pos rfl, List.append_nil, List.append_nil, ite_self, List.append_nil]
    cases last : closed.getLast? with
    | none =>
      rw [List.getLast?_eq_none_iff.mp last]
    | some line =>
      have ne : closed ≠ [] := by
        rintro rfl
        cases last
      simp only [getLast?_unlines ne, true_or, if_true]
  · rw [lastLine, if_neg empty, List.getLast?_concat]
    simp only [getLast?_unlines_append open_ empty, false_or, List.filter_append]
    cases is_ : lineIs rest name with
    | true => simp [is_]
    | false => simp [is_, unlines, ← List.append_assoc]

theorem splitLines_pkgindexRemove (buf name : List UInt8) :
    splitLines 0x0A (pkgindexRemove buf name) =
      (splitLines 0x0A (cstr buf)).filter fun line => !lineIs line name := by
  obtain ⟨closed, rest, plain, open_, text⟩ := eq_unlines_append 0x0A (cstr buf)
  rw [pkgindexRemove_view text plain open_, text, splitLines_unlines_append plain open_,
    List.filter_append, filter_lastLine]
  refine splitLines_unlines_append (fun line mem => plain line (List.mem_of_mem_filter mem)) ?_
  split
  · exact open_
  · exact List.not_mem_nil

/-- A text is found again in its lines. -/
theorem pkgindexRemove_of_forall (none_ : ∀ line ∈ splitLines 0x0A (cstr buf), lineIs line name = false) :
    pkgindexRemove buf name = cstr buf := by
  obtain ⟨closed, rest, plain, open_, text⟩ := eq_unlines_append 0x0A (cstr buf)
  rw [text, splitLines_unlines_append plain open_] at none_
  have kept : lineIs rest name = false := by
    by_cases empty : rest = []
    · rw [empty, lineIs_nil]
    · exact none_ rest (by simp [lastLine, empty])
  rw [pkgindexRemove_view text plain open_, text, kept, List.filter_eq_self.mpr]
  · rfl
  · intro line mem
    rw [none_ line (List.mem_append_left _ mem)]
    rfl

theorem splitLines_closeLine (text : List UInt8) : splitLines 0x0A (closeLine text) = splitLines 0x0A text := by
  obtain ⟨closed, rest, plain, open_, rfl⟩ := eq_unlines_append 0x0A text
  rw [closeLine_unlines_append open_, splitLines_unlines_append plain open_, splitLines_unlines]
  intro line mem
  rcases List.mem_append.mp mem with mem | mem
  · exact plain line mem
  · rw [lastLine] at mem
    split at mem
    · cases mem
    · obtain rfl := List.mem_singleton.mp mem
      exact open_

theorem splitLines_closeLine_append (text : List UInt8) (plain : 0x0A ∉ line) :
    splitLines 0x0A (closeLine text ++ (line ++ [0x0A])) = splitLines 0x0A text ++ [line] := by
  obtain ⟨closed, rest, closed_plain, open_, rfl⟩ := eq_unlines_append 0x0A text
  have lines := splitLines_closeLine (unlines 0x0A closed ++ rest)
  rw [closeLine_unlines_append open_] at lines ⊢
  have joined : unlines 0x0A (closed ++ lastLine rest) ++ (line ++ [0x0A]) =
      unlines 0x0A (closed ++ lastLine rest ++ [line]) := by simp [unlines]
  rw [joined, splitLines_unlines, ← lines, splitLines_unlines]
  all_goals
    intro l mem
    simp only [List.mem_append, lastLine] at mem
    grind

/-- The line of a package fits behind what `pkgindex_remove` leaves, a NUL behind it. -/
def Fits (cap : Nat) (buf name version : List UInt8) : Prop :=
  (closeLine (pkgindexRemove buf name)).length + (name ++ [0x2C] ++ version ++ [0x0A]).length < cap

theorem pkgindexAddIn_fits (fits : Fits cap buf name version) :
    pkgindexAddIn cap buf name version =
      closeLine (pkgindexRemove buf name) ++ (name ++ [0x2C] ++ version ++ [0x0A]) := by
  rw [Fits] at fits
  have room : ¬((pkgindexRemove buf name ≠ [] ∧ (pkgindexRemove buf name).getLast? ≠ some 0x0A) ∧
      cap ≤ (pkgindexRemove buf name).length + 1) := by
    rintro ⟨cut, full⟩
    rw [closeLine, if_pos cut, List.length_append, List.length_singleton] at fits
    omega
  have behind : ¬cap - (closeLine (pkgindexRemove buf name)).length ≤
      (name ++ [0x2C] ++ version ++ [0x0A]).length := by omega
  rw [pkgindexAddIn]
  dsimp only
  rw [if_neg room]
  exact if_neg behind

/-- Without room nothing is written but the line end of a line that was cut short. -/
theorem pkgindexAddIn_noRoom (full : ¬Fits cap buf name version) :
    pkgindexAddIn cap buf name version = pkgindexRemove buf name ∨
      pkgindexAddIn cap buf name version = closeLine (pkgindexRemove buf name) := by
  rw [Fits] at full
  rw [pkgindexAddIn]
  dsimp only
  split
  · exact .inl rfl
  · have behind : cap - (closeLine (pkgindexRemove buf name)).length ≤
        (name ++ [0x2C] ++ version ++ [0x0A]).length := by omega
    exact .inr (if_pos behind)

/-! ### Names -/

/-- A name or a version: neither a separator nor a comment nor an end is in it. -/
structure Plain (s : List UInt8) : Prop where
  comma : 0x2C ∉ s
  newline : 0x0A ∉ s
  hash : 0x23 ∉ s

/-- A name is not found across a line end. -/
theorem lineIs_append (plain : 0x0A ∉ name) : lineIs (line ++ 0x0A :: rest) name = lineIs line name := by
  rw [lineIs, lineIs, Bool.eq_iff_iff, List.isPrefixOf_iff_prefix, List.isPrefixOf_iff_prefix]
  refine ⟨fun found => ?_, fun found => found.trans (List.prefix_append _ _)⟩
  rcases Nat.lt_or_ge line.length (name ++ [0x2C]).length with longer | le
  · have inside : line ++ [0x0A] <+: name ++ [0x2C] := by
      refine List.prefix_of_prefix_length_le ?_ found (by simpa using longer)
      exact ⟨rest, by simp⟩
    have mem := inside.subset (List.mem_append_right _ (List.mem_singleton_self _))
    rcases List.mem_append.mp mem with mem | mem
    · exact absurd mem plain
    · simp at mem
  · exact List.prefix_of_prefix_length_le found (List.prefix_append _ _) le

theorem hasLoop_eq_any (plain : 0x0A ∉ name) {passes : Nat} {p : List UInt8} (enough : p.length ≤ passes) :
    hasLoop name passes p = (splitLines 0x0A p).any fun line => lineIs line name := by
  induction passes generalizing p with
  | zero =>
    obtain rfl := List.length_eq_zero_iff.mp (Nat.le_zero.mp enough)
    rfl
  | succ passes ih =>
    rw [hasLoop]
    split
    · rename_i empty
      rw [empty]
      rfl
    rename_i ne
    cases cut : cutAt 0x0A p with
    | none =>
      rw [splitLines_last (notMem_of_cutAt cut) ne]
      simp
    | some pair =>
      obtain ⟨line, rest⟩ := pair
      obtain ⟨rfl, line_plain⟩ := of_cutAt cut
      rw [List.length_append, List.length_cons] at enough
      rw [splitLines_append line_plain, List.any_cons, lineIs_append plain]
      dsimp only
      rw [ih (by omega)]
      cases lineIs line name <;> rfl

theorem pkgindexHas_iff (plain : 0x0A ∉ name) :
    pkgindexHas buf name = true ↔ ∃ version, name ++ [0x2C] ++ version ∈ splitLines 0x0A (cstr buf) := by
  rw [pkgindexHas, hasLoop_eq_any plain le_rfl, List.any_eq_true]
  constructor
  · rintro ⟨line, mem, is_⟩
    obtain ⟨version, rfl⟩ := lineIs_iff.mp is_
    exact ⟨version, mem⟩
  · rintro ⟨version, mem⟩
    exact ⟨_, mem, lineIs_iff.mpr ⟨version, rfl⟩⟩

/-- A line without a comma is walked as a name with the version `?`. -/
theorem mem_pkgindexWalk (plain : Plain name) :
    (name, version) ∈ pkgindexWalk buf ↔
      name ++ [0x2C] ++ version ∈ splitLines 0x0A (cstr buf) ∨
        name ∈ splitLines 0x0A (cstr buf) ∧ name ≠ [] ∧ version = ascii "?" := by
  have uncommented : ∀ behind : List UInt8, behind.head? ≠ some 0x23 → (name ++ behind).head? ≠ some 0x23 := by
    intro behind no
    cases shape : name with
    | nil => exact no
    | cons c name' =>
      rintro eq
      have hash := plain.hash
      rw [shape] at hash
      exact hash (by simp_all)
  rw [pkgindexWalk, List.mem_map]
  constructor
  · rintro ⟨line, mem, eq⟩
    obtain ⟨mem, kept⟩ := List.mem_filter.mp mem
    cases cut : cutAt 0x2C line with
    | none =>
      rw [cut] at eq
      obtain ⟨rfl, rfl⟩ := Prod.mk.inj eq
      exact .inr ⟨mem, (of_decide_eq_true kept).1, rfl⟩
    | some pair =>
      rw [cut] at eq
      obtain rfl : pair = (name, version) := eq
      rw [(of_cutAt cut).1] at mem
      exact .inl (by simpa using mem)
  · rintro (mem | ⟨mem, ne, rfl⟩)
    · refine ⟨_, List.mem_filter.mpr ⟨mem, decide_eq_true ⟨by simp, ?_⟩⟩, ?_⟩
      · rw [List.append_assoc]
        exact uncommented _ (by simp)
      · rw [List.append_assoc, List.singleton_append, cutAt_append plain.comma]
        rfl
    · refine ⟨name, List.mem_filter.mpr ⟨mem, decide_eq_true ⟨ne, ?_⟩⟩, ?_⟩
      · simpa using uncommented [] (by simp)
      · rw [cutAt_notMem plain.comma]
        rfl

/-- One line of the name, with the version; the other lines are there as they were, in their order. -/
structure Rewritten (before after : List (List UInt8)) (name version : List UInt8) : Prop where
  one : (after.filter fun line => lineIs line name) = [name ++ [0x2C] ++ version]
  others : (after.filter fun line => !lineIs line name) = before.filter fun line => !lineIs line name

/-- The index is a map: `pkgindex_add` gives a name its version where the line fits and otherwise leaves the lines of
an index without the name, `pkgindex_remove` takes the lines of the name out, and `pkgindex_has` and
`pkgindex_walk` tell of the lines with a comma; a line without one is walked as a name without a version. -/
theorem pkgindex_map (cap : Nat) (buf name version : List UInt8) (plain : Plain name) (plain_version : Plain version) :
    (Fits cap buf name version →
      Rewritten (splitLines 0x0A (cstr buf)) (splitLines 0x0A (pkgindexAddIn cap buf name version)) name version) ∧
    (¬Fits cap buf name version → pkgindexHas buf name = false →
      pkgindexAddIn cap buf name version = cstr buf ∨
        pkgindexAddIn cap buf name version = closeLine (cstr buf)) ∧
    splitLines 0x0A (pkgindexRemove buf name) =
      (splitLines 0x0A (cstr buf)).filter (fun line => !lineIs line name) ∧
    (pkgindexHas buf name = true ↔ ∃ v, name ++ [0x2C] ++ v ∈ splitLines 0x0A (cstr buf)) ∧
    ∀ v, (name, v) ∈ pkgindexWalk buf ↔
      name ++ [0x2C] ++ v ∈ splitLines 0x0A (cstr buf) ∨
        name ∈ splitLines 0x0A (cstr buf) ∧ name ≠ [] ∧ v = ascii "?" := by
  have has_iff := @pkgindexHas_iff buf name plain.newline
  refine ⟨fun fits => ?_, fun full no => ?_, splitLines_pkgindexRemove buf name, has_iff, fun v =>
    mem_pkgindexWalk plain⟩
  · have new : 0x0A ∉ name ++ [0x2C] ++ version := by
      simp [plain.newline, plain_version.newline]
    have is_ : lineIs (name ++ [0x2C] ++ version) name = true := lineIs_iff.mpr ⟨version, rfl⟩
    rw [pkgindexAddIn_fits fits, splitLines_closeLine_append _ new, splitLines_pkgindexRemove]
    constructor
    · rw [List.filter_append, List.filter_filter, List.filter_singleton, is_]
      simp
    · rw [List.filter_append, List.filter_filter, List.filter_singleton, is_]
      simp
  · have same : pkgindexRemove buf name = cstr buf := by
      refine pkgindexRemove_of_forall fun line mem => Bool.eq_false_iff.mpr fun is_ => ?_
      obtain ⟨v, rfl⟩ := lineIs_iff.mp is_
      rw [has_iff.mpr ⟨v, mem⟩] at no
      cases no
    rw [← same]
    exact pkgindexAddIn_noRoom full

theorem pkgindex_map_upgrade :
    Rewritten (splitLines 0x0A (cstr (ascii "d1,0.9\nd1x,2")))
      (splitLines 0x0A (pkgindexAddIn 16 (ascii "d1,0.9\nd1x,2") (ascii "d1") (ascii "1.0"))) (ascii "d1")
      (ascii "1.0") := by
  have plain : ∀ s, (0x2C ∉ s ∧ 0x0A ∉ s ∧ 0x23 ∉ s) → Plain s := fun s h => ⟨h.1, h.2.1, h.2.2⟩
  refine (pkgindex_map 16 _ _ _ (plain _ (by decide)) (plain _ (by decide))).1 ?_
  rw [Fits]
  decide +kernel

/-- A last line cut short gets its line end also where the new line does not fit. -/
theorem pkgindexAddIn_cut :
    ¬Rewritten (splitLines 0x0A (cstr (ascii "a,1\nb,2")))
        (splitLines 0x0A (pkgindexAddIn 12 (ascii "a,1\nb,2") (ascii "c") (ascii "3"))) (ascii "c") (ascii "3") ∧
      pkgindexAddIn 12 (ascii "a,1\nb,2") (ascii "c") (ascii "3") ≠ cstr (ascii "a,1\nb,2") :=
  ⟨fun no => absurd no.one (by decide +kernel), by decide +kernel⟩

end RPCortex.Package
