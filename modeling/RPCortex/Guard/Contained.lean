import RPCortex.Guard.Commands

/-! What a restricted session's file commands can reach.  The checks are made once, on the argument
as it was resolved; `Away` says that a path leads to no protected file, also from further down, and
it is what a removal of a whole directory, a wildcard and a new name in an old directory keep. -/

namespace RPCortex.Guard

open Lib RPCortex.Path

variable {s : Session} {loops : Nat} {cwd path p q n x : List UInt8}

/-- A path that is not above or at a protected file. -/
def Away (p : List UInt8) : Prop := ∀ s ∈ protectedPaths, ¬normal p <+: s

theorem away_of_not_holder (h : ¬NamesHolder p) : Away p := fun _ hs => not_under h hs

theorem Away.remove (h : Away p) : (Op.remove p).Harmless :=
  fun _ hs eq => h _ hs (eq ▸ List.prefix_refl _)

/-- What may be changed leads to no protected file. -/
theorem not_holder_of_change (restricted : fsSessionRestricted s = true) (cwd arg : List UInt8)
    {cap : Nat} (room : 2 ≤ cap)
    (h : fsMayChange firmwareChecks s (pathResolve cwd arg cap) = true) :
    ¬NamesHolder (pathResolve cwd arg cap) := fun names => by
  have : protectReaches (pathResolve cwd arg cap) = false := not_reaches restricted h
  rw [(guarded_pathResolve cwd arg room).2 names] at this
  cases this

/-- What may be read is no protected file. -/
theorem not_secret_of_read (restricted : fsSessionRestricted s = true) (cwd arg : List UInt8)
    {cap : Nat} (room : 2 ≤ cap)
    (h : fsMayRead firmwareChecks s (pathResolve cwd arg cap) = true) :
    ¬NamesSecret (pathResolve cwd arg cap) := fun names => by
  have : protectSecret (pathResolve cwd arg cap) = false := not_secret restricted h
  rw [(guarded_pathResolve cwd arg room).1 names] at this
  cases this

/-! ### A name behind a path -/

theorem isName_take (name : IsName n) : IsName (n.take 63) := by
  obtain ⟨full, noSlash, notDot, notDots⟩ := name
  have same {l : List UInt8} (short : l.length ≤ 2) (eq : n.take 63 = l) : n = l := by
    have := congrArg List.length eq
    rw [List.length_take] at this
    rw [← eq, List.take_of_length_le (by omega)]
  refine ⟨fun eq => full (same (by simp) eq), fun mem => noSlash (List.mem_of_mem_take mem),
    fun eq => notDot (same (by simp) eq), fun eq => notDots (same (by simp) eq)⟩

theorem normal_under (name : IsName n) : normal (under p n) = normal p ++ [n] := by
  unfold under
  split
  · exact normal_name name
  · rename_i ends
    rw [not_or, not_not] at ends
    obtain ⟨front, rfl⟩ := List.getLast?_eq_some_iff.mp ends.2
    have bare : normal (front ++ [slash]) = normal front := by
      rw [normal, normal, movesOf, movesOf, components_append_slash front []]
      simp [components, splitLines]
    rw [List.append_assoc, List.singleton_append, normal_name name, bare]

theorem Away.under (h : Away p) (name : IsName n) : Away (under p n) := by
  intro s hs pre
  rw [normal_under name] at pre
  exact h s hs ((List.prefix_append _ _).trans pre)

/-! ### Removing a directory -/

theorem rmPush_away (h : Away p) (name : IsName n) {child : List UInt8}
    (eq : rmPush p n = some child) : Away child := by
  unfold rmPush at eq
  split at eq
  · cases eq
  · obtain rfl := Option.some.inj eq
    exact h.under name

theorem rmEntries_all {tree : List UInt8 → Prog Op Answer (Bool × Nat)}
    (inner : ∀ child, Away child → (tree child).All Op.Harmless) (h : Away p) (passes : Nat) :
    (rmEntries tree p passes).All Op.Harmless := by
  induction passes with
  | zero => exact Prog.all_pure _
  | succ passes ih =>
    refine Prog.all_call_bind harmless_walk fun w => ?_
    refine .ite (fun _ => Prog.all_pure _) fun _ => ?_
    cases w.entries with
    | nil => exact Prog.all_pure _
    | cons e _ =>
      simp only
      cases push : rmPush p (e.bytes.take 63) with
      | none => exact Prog.all_pure _
      | some child =>
        refine (inner child (rmPush_away h (isName_take e.isName) push)).bind fun removed => ?_
        refine .ite (fun _ => Prog.all_pure _) fun _ => ?_
        refine Prog.all_call_bind (fun _ _ => trivial) fun stop => ?_
        refine .ite (fun _ => Prog.all_pure _) fun _ => ?_
        exact ih.bind fun _ => Prog.all_pure _

theorem rmTree_all (levels : Nat) (h : Away p) : (rmTree loops levels p).All Op.Harmless := by
  induction levels generalizing p with
  | zero => exact Prog.all_pure _
  | succ levels ih =>
    refine Prog.all_call_bind harmless_stat fun st => ?_
    refine .ite (fun _ => Prog.all_pure _) fun _ => ?_
    refine .ite (fun _ => ?_) fun _ => ?_
    · exact Prog.all_call_bind h.remove fun _ => Prog.all_pure _
    · refine (rmEntries_all (fun _ away => ih away) h loops).bind fun emptied => ?_
      refine .ite (fun _ => Prog.all_pure _) fun _ => ?_
      exact Prog.all_call_bind h.remove fun _ => Prog.all_pure _

theorem rmAt_all (h : Away p) : (rmAt loops p).All Op.Harmless :=
  .ite (fun _ => Prog.all_pure _) fun _ => rmTree_all 17 h

theorem rmExplain_all (p : List UInt8) : (rmExplain p).All Op.Harmless := by
  refine Prog.all_call_bind harmless_stat fun st => ?_
  refine .ite (fun _ => Prog.all_pure _) fun _ => ?_
  exact .ite (fun _ => Prog.all_pure _) fun _ => Prog.all_pure _

/-! ### Wildcards -/

theorem wildcardReaches_render (init : List (List UInt8)) (noSlash : slash ∉ n) :
    wildcardReaches (render (init ++ [n])) =
      ((n.any fun d => d = 0x2A ∨ d = 0x3F) &&
        (decide (init.flatMap (slash :: ·) = []) ||
          decide (init.flatMap (slash :: ·) = kDir))) := by
  have shape : (render (init ++ [n])).reverse =
      n.reverse ++ slash :: (init.flatMap (slash :: ·)).reverse := by
    rw [render, if_neg (by simp), List.flatMap_append]
    simp
  have away : ∀ a ∈ n.reverse, decide (a ≠ slash) = true := by
    intro a ha
    have : a ≠ slash := fun same => noSlash (same ▸ List.mem_reverse.mp ha)
    simpa using this
  rw [wildcardReaches, shape, List.dropWhile_append_of_pos away, List.takeWhile_append_of_pos away]
  simp [List.any_reverse]

theorem prefix_shape : ∀ s ∈ protectedPaths, ∀ q ∈ s.inits,
    q = s ∨ q = [] ∨ (q.flatMap (slash :: ·)).map lower = kDir := by decide +kernel

/-- A name with a star behind a directory that holds protected files, or behind the root, is found
by the second check. -/
theorem protectReaches_star (noSlash : slash ∉ n) (star : 0x2A ∈ n) (small : Small (p ++ slash :: n))
    (absolute : ∃ rest, p ++ slash :: n = slash :: rest) (short : (p ++ slash :: n).length < 192)
    (holds : normal p = [] ∨ ((normal p).flatMap (slash :: ·)).map lower = kDir) :
    protectReaches (p ++ slash :: n) = true := by
  have name : IsName n := by
    refine ⟨List.ne_nil_of_mem star, noSlash, ?_, ?_⟩
    · rintro rfl
      exact absurd star (by decide)
    · rintro rfl
      exact absurd star (by decide)
  have whole : normal (p ++ slash :: n) = normal p ++ [n] := normal_name name
  have few : ((normal p).flatMap (slash :: ·)).length ≤ 3 := by
    rcases holds with none | dir
    · simp [none]
    · have := congrArg List.length dir
      rw [List.length_map] at this
      rw [this]
      decide
  have ofName : n.length < 40 := by
    refine small.2 n ?_
    rw [components_append_slash, components_of_notMem noSlash name.1]
    simp
  have form : (normalForm (p ++ slash :: n)).length < 192 := by
    rw [normalForm, whole, render, if_neg (by simp), List.flatMap_append, List.length_append,
      List.flatMap_singleton, List.length_cons]
    omega
  have kept := small.kept
  obtain ⟨rest, eq⟩ := absolute
  rw [eq] at kept form whole short ⊢
  rw [protectReaches_of_canon (canon_of_short (by omega) form), parts_eq_iff.mpr kept, whole,
    List.map_append, List.map_singleton, wildcardReaches_render _ name.lower.2.1]
  have found : ((n.map lower).any fun d => d = 0x2A ∨ d = 0x3F) = true := by
    refine List.any_eq_true.mpr ⟨0x2A, List.mem_map.mpr ⟨0x2A, star, by decide⟩, by decide⟩
  have lowered : ((normal p).map (List.map lower)).flatMap (slash :: ·) =
      ((normal p).flatMap (slash :: ·)).map lower := by
    rw [List.map_flatMap, List.flatMap_map]
    have : lower slash = slash := by decide
    simp only [List.map_cons, this]
  rw [found, lowered]
  rcases holds with none | dir
  · simp [none]
  · simp [dir]

/-- What a wildcard matches in a directory that the second check lets pass. -/
theorem away_match (noSlash : slash ∉ n) (star : 0x2A ∈ n) (small : Small (p ++ slash :: n))
    (absolute : ∃ rest, p ++ slash :: n = slash :: rest) (short : (p ++ slash :: n).length < 192)
    (passed : ¬protectReaches (p ++ slash :: n) = true) (name : IsName x) :
    Away (under (if p = [] then [slash] else p) x) := by
  have dir : normal (if p = [] then [slash] else p) = normal p := by
    split
    · rename_i empty
      rw [empty]
      decide
    · rfl
  intro s hs pre
  rw [normal_under name, dir] at pre
  have front : normal p <+: s := (List.prefix_append _ _).trans pre
  rcases prefix_shape s hs _ ((List.mem_inits _ _).mpr front) with rfl | none | holds
  · have := pre.length_le
    simp at this
  · exact passed (protectReaches_star noSlash star small absolute short (.inl none))
  · exact passed (protectReaches_star noSlash star small absolute short (.inr holds))

theorem rmMatches_all {dir pat : List UInt8} (short : dir.length ≤ 159)
    (inner : ∀ n, IsName n → Away (under dir n)) (passes removed : Nat) :
    (rmMatches loops dir pat passes removed).All Op.Harmless := by
  induction passes generalizing removed with
  | zero => exact Prog.all_pure _
  | succ passes ih =>
    refine Prog.all_call_bind harmless_walk fun w => ?_
    refine .ite (fun _ => Prog.all_pure _) fun _ => ?_
    cases w.entries.find? fun e => globMatch pat e.bytes with
    | none => exact Prog.all_pure _
    | some e =>
      simp only
      -- the path of an entry fits in the buffer
      have fit : (under dir (e.bytes.take 63)).length ≤ 255 := by
        have : (e.bytes.take 63).length ≤ 63 := List.length_take_le _ _
        unfold under
        split <;> simp only [List.length_append, List.length_cons] <;> omega
      have away := inner _ (isName_take e.isName)
      rw [List.take_of_length_le fit]
      refine (rmAt_all away).bind fun gone => ?_
      refine .ite (fun _ => ?_) fun _ => ?_
      · exact (rmExplain_all _).bind fun _ => Prog.all_pure _
      · refine Prog.all_call_bind (fun _ _ => trivial) fun stop => ?_
        exact .ite (fun _ => Prog.all_pure _) fun _ => ih _

/-! ### A new name in an old directory -/

theorem secret_components : ∀ c ∈ kSecret, ∀ d ∈ components c, d.length < 40 := by decide +kernel

/-- A name behind a path that loses no component: if it makes the path of a protected file, it is
not lost either. -/
theorem kept_last (kept : Kept p) (noSlash : slash ∉ x) (secret : NamesSecret (p ++ slash :: x)) :
    Kept (p ++ slash :: x) := by
  by_cases empty : x = []
  · have : movesOf (p ++ slash :: x) = movesOf p := by
      rw [movesOf, components_append_slash, empty]
      simp [components, splitLines, movesOf]
    rwa [Kept, this]
  · have last : movesOf (p ++ slash :: x) = movesOf p ++ [x].filterMap moveOf := by
      rw [movesOf, components_append_slash, components_of_notMem noSlash empty,
        List.filterMap_append]
      rfl
    rw [Kept, intact] at kept ⊢
    by_cases isDot : x = [dot]
    · rw [last, isDot]
      simpa [moveOf] using kept
    · by_cases isDots : x = [dot, dot]
      · rw [last, isDots]
        simp [moveOf, Move.watch, List.foldl_append, kept]
      · have name : IsName x := ⟨empty, noSlash, isDot, isDots⟩
        have two := secret.length_normal
        rw [normal_name name, List.length_append, List.length_singleton] at two
        have len : x.length < 40 := by
          have := secret_components _ secret (x.map lower) (by
            rw [components_lowered, normal_name name]
            simp)
          simpa using this
        have accepted : fits (stack (movesOf p)) x = true := by
          refine decide_eq_true ⟨?_, len⟩
          rw [normal, List.length_reverse] at two
          omega
        rw [movesOf_name name, List.foldl_append]
        simp only [List.foldl_cons, List.foldl_nil, Move.watch, kept, Bool.true_and]
        rw [watch_fst]
        exact accepted

theorem not_holder_target (restricted : fsSessionRestricted s = true) (cwd old : List UInt8)
    {new : List UInt8} (noSlash : slash ∉ new)
    (h : fsMayChange firmwareChecks s
      ((dirPart (pathResolve cwd old 128) ++ slash :: new).take 127) = true) :
    ¬NamesHolder ((dirPart (pathResolve cwd old 128) ++ slash :: new).take 127) := by
  have small := small_pathResolve cwd old 128
  have long : (pathResolve cwd old 128).length ≤ 127 := List.length_take_le _ _
  obtain ⟨rest, head⟩ := head_pathResolve cwd old (show 2 ≤ 128 by decide)
  generalize pathResolve cwd old 128 = source at *
  have whole := dirPart_append (p := source) (by rw [head]; simp)
  have less : (dirPart source).length ≤ 126 := by
    have := congrArg List.length whole
    simp only [List.length_append, List.length_cons] at this
    omega
  obtain ⟨k, hk⟩ := Nat.exists_eq_add_of_le less
  have cut : (dirPart source ++ slash :: new).take 127 = dirPart source ++ slash :: new.take k := by
    rw [List.take_append, List.take_of_length_le (by omega),
      show 127 - (dirPart source).length = k + 1 by omega, List.take_succ_cons]
  rw [cut] at h ⊢
  have kept : Kept (dirPart source) := (Small.beginning (by rwa [whole])).kept
  have notMem : slash ∉ new.take k := fun mem => noSlash (List.mem_of_mem_take mem)
  have absolute : ∃ rest, dirPart source ++ slash :: new.take k = slash :: rest := by
    cases hd : dirPart source with
    | nil => exact ⟨_, rfl⟩
    | cons b front =>
      rw [hd, head] at whole
      obtain ⟨rfl, -⟩ := List.cons.inj whole
      exact ⟨_, rfl⟩
  intro names
  have guarded : Guarded (dirPart source ++ slash :: new.take k) := by
    have last := kept_last kept notMem
    obtain ⟨rest, eq⟩ := absolute
    rw [eq] at last ⊢
    exact (guarded_iff rest).mpr fun secret => .inr (last secret)
  have : protectReaches (dirPart source ++ slash :: new.take k) = false :=
    not_reaches restricted h
  rw [guarded.2 names] at this
  cases this

end RPCortex.Guard
