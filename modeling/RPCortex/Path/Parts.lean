import RPCortex.Path.Protect

/-! Paths cut off and put together: the components of the beginning of a path, of a path with a name
behind it, and of the two sides of its last slash.  A path of few and short components is judged
right by the two checks, and so is what `path_resolve` writes. -/

namespace RPCortex.Path

open Lib

variable {p q c n : List UInt8} {cs : List (List UInt8)}

/-! ### The beginning of a path -/

/-- Each line of a beginning of a text is the beginning of a line. -/
theorem splitLines_beginning (p q : List UInt8) : ∃ lines, lines <+: splitLines slash (p ++ q) ∧
    List.Forall₂ (fun a b => a <+: b) (splitLines slash p) lines := by
  induction p with
  | nil => exact ⟨[], List.nil_prefix, .nil⟩
  | cons b p ih =>
    obtain ⟨lines, pre, each⟩ := ih
    rw [List.cons_append, splitLines, splitLines]
    by_cases sep : b = slash
    · rw [if_pos sep, if_pos sep]
      exact ⟨[] :: lines, List.cons_prefix_cons.mpr ⟨rfl, pre⟩,
        .cons (List.prefix_refl _) each⟩
    · rw [if_neg sep, if_neg sep]
      cases hp : splitLines slash p with
      | nil =>
        simp only
        cases hq : splitLines slash (p ++ q) with
        | nil => exact ⟨[[b]], List.prefix_refl _, .cons (List.prefix_refl _) .nil⟩
        | cons line more =>
          exact ⟨[b :: line], by simp, .cons (by simp) .nil⟩
      | cons line rest =>
        rw [hp] at each
        cases each with
        | @cons _ line' _ rest' begins each =>
          cases hq : splitLines slash (p ++ q) with
          | nil =>
            rw [hq] at pre
            cases List.prefix_nil.mp pre
          | cons line'' more =>
            rw [hq] at pre
            obtain ⟨rfl, pre'⟩ := List.cons_prefix_cons.mp pre
            exact ⟨(b :: line') :: rest', List.cons_prefix_cons.mpr ⟨rfl, pre'⟩,
              .cons (List.cons_prefix_cons.mpr ⟨rfl, begins⟩) each⟩

/-- The beginning of a path has no more components, and none longer than all of the path's. -/
theorem components_beginning {k : Nat} (short : ∀ c ∈ components (p ++ q), c.length < k) :
    (components p).length ≤ (components (p ++ q)).length ∧
      ∀ c ∈ components p, c.length < k := by
  obtain ⟨lines, pre, each⟩ := splitLines_beginning p q
  have more : (lines.filter fun c => c ≠ []).length ≤ (components (p ++ q)).length :=
    (pre.sublist.filter _).length_le
  have inside : ∀ c ∈ lines, c.length = 0 ∨ c.length < k := by
    intro c hc
    by_cases empty : c = []
    · simp [empty]
    · exact .inr (short c (List.mem_filter.mpr ⟨pre.subset hc, by simpa using empty⟩))
  unfold components
  generalize splitLines slash p = own at each
  clear pre
  have le : (own.filter fun c => c ≠ []).length ≤ (lines.filter fun c => c ≠ []).length ∧
      ∀ c ∈ own.filter fun c => c ≠ [], c.length < k := by
    induction each with
    | nil => exact ⟨le_refl _, fun c hc => nomatch hc⟩
    | @cons a b as bs begins _ ih =>
      obtain ⟨len, all⟩ := ih (le_trans (by
        by_cases empty : b = [] <;> simp [empty]) more) fun c hc => inside c (by simp [hc])
      by_cases empty : a = []
      · rw [List.filter_cons_of_neg (by simp [empty])]
        refine ⟨le_trans len ?_, all⟩
        by_cases hb : b = [] <;> simp [hb]
      · have full : b ≠ [] := by
          rintro rfl
          exact empty (List.prefix_nil.mp begins)
        rw [List.filter_cons_of_pos (by simpa using empty),
          List.filter_cons_of_pos (by simpa using full)]
        refine ⟨by simpa using len, fun c hc => ?_⟩
        rcases List.mem_cons.mp hc with rfl | hc
        · have := inside b (by simp)
          have := begins.length_le
          have := List.length_pos_iff.mpr empty
          omega
        · exact all c hc
  exact ⟨le.1.trans more, le.2⟩

/-! ### Paths put together -/

/-- The components on both sides of a slash. -/
theorem components_append_slash (p q : List UInt8) :
    components (p ++ slash :: q) = components p ++ components q := by
  by_cases sep : slash ∈ p
  · obtain ⟨line, rest, rfl, notMem⟩ := List.eq_append_cons_of_mem sep
    have ih := components_append_slash rest q
    unfold components at ih ⊢
    rw [List.append_assoc, List.cons_append, splitLines_append notMem, splitLines_append notMem]
    simp only [List.filter_cons, ih]
    split <;> rfl
  · unfold components
    rw [splitLines_append sep, List.filter_cons]
    by_cases empty : p = []
    · simp [empty]
    · rw [splitLines_last sep empty]
      simp [empty]
termination_by p.length
decreasing_by
  subst_vars
  simp
  omega

theorem components_of_notMem (h : slash ∉ p) (full : p ≠ []) : components p = [p] := by
  unfold components
  rw [splitLines_last h full]
  simp [full]

theorem moveOf_name (name : IsName n) : moveOf n = some (.push n) := by
  rw [moveOf, if_neg name.2.2.1, if_neg name.2.2.2]

/-- A name behind a path. -/
theorem movesOf_name (name : IsName n) :
    movesOf (p ++ slash :: n) = movesOf p ++ [.push n] := by
  rw [movesOf, components_append_slash, components_of_notMem name.2.1 name.1,
    List.filterMap_append]
  simp [moveOf_name name, movesOf]

theorem normal_name (name : IsName n) : normal (p ++ slash :: n) = normal p ++ [n] := by
  rw [normal, movesOf_name name, stack, List.foldl_append]
  simp [Move.on, normal, stack]

/-! ### The last slash -/

/-- The part before the last slash. -/
def dirPart (p : List UInt8) : List UInt8 :=
  ((p.reverse.dropWhile fun d => d ≠ slash).tail).reverse

/-- The part behind the last slash. -/
def lastPart (p : List UInt8) : List UInt8 := (p.reverse.takeWhile fun d => d ≠ slash).reverse

theorem slash_notMem_lastPart (p : List UInt8) : slash ∉ lastPart p := by
  intro h
  have := List.mem_takeWhile_imp (List.mem_reverse.mp h)
  simp at this

/-- A path is put together again from its two parts. -/
theorem dirPart_append (h : slash ∈ p) : dirPart p ++ slash :: lastPart p = p := by
  obtain ⟨front, back, eq, notMem⟩ := List.eq_append_cons_of_mem (List.mem_reverse.mpr h)
  have take : (p.reverse.takeWhile fun d => d ≠ slash) = front := by
    rw [eq, List.takeWhile_append_of_pos (by
      intro a ha
      have : a ≠ slash := fun same => notMem (same ▸ ha)
      simpa using this)]
    simp
  have drop : (p.reverse.dropWhile fun d => d ≠ slash) = slash :: back := by
    rw [eq, List.dropWhile_append_of_pos (by
      intro a ha
      have : a ≠ slash := fun same => notMem (same ▸ ha)
      simpa using this)]
    simp
  rw [dirPart, lastPart, take, drop, List.tail_cons]
  have := congrArg List.reverse eq
  rw [List.reverse_reverse] at this
  rw [this]
  simp

/-! ### Paths that the checks judge right -/

/-- At most 16 components of at most 39 characters. -/
def Small (p : List UInt8) : Prop :=
  (components p).length ≤ 16 ∧ ∀ c ∈ components p, c.length < 40

theorem Small.beginning (h : Small (p ++ q)) : Small p := by
  obtain ⟨le, short⟩ := components_beginning h.2
  exact ⟨le.trans h.1, short⟩

theorem Small.take (h : Small p) (k : Nat) : Small (p.take k) :=
  Small.beginning (q := p.drop k) (by rwa [List.take_append_drop])

/-- A small path loses no component. -/
theorem Small.kept (h : Small p) : Kept p := by
  have count : (movesOf p).length ≤ 16 := (List.length_filterMap_le _ _).trans h.1
  have short : ∀ c, Move.push c ∈ movesOf p → c.length < 40 := by
    intro c mem
    obtain ⟨d, hd, eq⟩ := List.mem_filterMap.mp mem
    unfold moveOf at eq
    split at eq
    · cases eq
    · split at eq
      · cases eq
      · obtain rfl : d = c := by simpa using eq
        exact h.2 d hd
  unfold Kept intact
  generalize movesOf p = moves at count short
  have step : ∀ (moves : List (Move (List UInt8))) (s : List (List UInt8)),
      s.length + moves.length ≤ 16 → (∀ c, Move.push c ∈ moves → c.length < 40) →
      (moves.foldl (Move.watch fits) (s, true)).2 = true := by
    intro moves
    induction moves with
    | nil => exact fun s _ _ => rfl
    | cons m moves ih =>
      intro s room short
      rw [List.length_cons] at room
      rw [List.foldl_cons]
      cases m with
      | push c =>
        have accepted : fits s c = true :=
          decide_eq_true ⟨by omega, short c (by simp)⟩
        simp only [Move.watch, accepted, Bool.and_true]
        exact ih _ (by rw [List.length_cons]; omega) fun d hd => short d (by simp [hd])
      | pop =>
        simp only [Move.watch, Bool.true_or]
        exact ih _ (by rw [List.length_tail]; omega) fun d hd => short d (by simp [hd])
  exact step moves [] (by simpa using count) short

theorem small_render (names : ∀ c ∈ cs, IsName c) (count : cs.length ≤ 16)
    (short : ∀ c ∈ cs, c.length < 40) : Small (render cs) := by
  rw [Small, components_render names]
  exact ⟨count, short⟩

theorem small_parts (w : List UInt8) : (parts w).length ≤ 16 ∧ ∀ c ∈ parts w, c.length < 40 := by
  constructor
  · have step : ∀ (moves : List (Move (List UInt8))) (s : List (List UInt8)), s.length ≤ 16 →
        (moves.foldl (Move.onIf fits) s).length ≤ 16 := by
      intro moves
      induction moves with
      | nil => exact fun s h => h
      | cons m moves ih =>
        intro s h
        refine ih _ ?_
        cases m with
        | push c =>
          simp only [Move.onIf]
          split
          · rename_i accepted
            have := (of_decide_eq_true accepted).1
            rw [List.length_cons]
            omega
          · exact h
        | pop =>
          simp only [Move.onIf, List.length_tail]
          omega
    rw [parts, List.length_reverse]
    exact step _ [] (by simp)
  · exact fun c hc => forall_stackIf (fun _ _ _ accepted => (of_decide_eq_true accepted).2) c
      (List.mem_reverse.mp hc)

/-- What `path_resolve` writes is small. -/
theorem small_pathResolve (cwd inp : List UInt8) (cap : Nat) : Small (pathResolve cwd inp cap) :=
  (small_render isName_parts (small_parts _).1 (small_parts _).2).take _

theorem guarded_of_kept (kept : Kept (slash :: q)) : Guarded (slash :: q) :=
  (guarded_iff q).mpr fun _ => .inr kept

theorem head_render (cs : List (List UInt8)) : ∃ rest, render cs = slash :: rest := by
  unfold render
  split
  · exact ⟨[], rfl⟩
  · rename_i some
    obtain ⟨c, cs, rfl⟩ := List.exists_cons_of_ne_nil some
    exact ⟨_, rfl⟩

/-- What `path_resolve` writes starts with a slash. -/
theorem head_pathResolve (cwd inp : List UInt8) {cap : Nat} (room : 2 ≤ cap) :
    ∃ rest, pathResolve cwd inp cap = slash :: rest := by
  obtain ⟨rest, eq⟩ := head_render (parts ((joined cwd inp).take 191))
  obtain ⟨k, rfl⟩ := Nat.exists_eq_add_of_le room
  refine ⟨rest.take k, ?_⟩
  rw [pathResolve, eq, show 2 + k - 1 = k + 1 by omega, List.take_succ_cons]

/-- The checks judge what `path_resolve` writes right. -/
theorem guarded_pathResolve (cwd inp : List UInt8) {cap : Nat} (room : 2 ≤ cap) :
    Guarded (pathResolve cwd inp cap) := by
  have kept := (small_pathResolve cwd inp cap).kept
  obtain ⟨rest, eq⟩ := head_pathResolve cwd inp room
  rw [eq] at kept ⊢
  exact guarded_of_kept kept

end RPCortex.Path
