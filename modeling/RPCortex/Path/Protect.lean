import RPCortex.Path.Resolve

/-! `protect_secret` and `protect_reaches` of `protect.cpp`, which decide by the path that
`path_resolve` makes of an argument, and the files that a path names by its normal form. -/

namespace RPCortex.Path

open Lib

/-- `kSecret`. -/
def kSecret : List (List UInt8) :=
  [ascii "/os/registry.cfg", ascii "/os/registry.bak", ascii "/os/users.cfg",
    ascii "/os/users.bak", ascii "/os/device.key"]

/-- `kDir`. -/
def kDir : List UInt8 := ascii "/os"

/-- An ASCII capital in lower case. -/
def lower (c : UInt8) : UInt8 := if 0x41 ≤ c ∧ c ≤ 0x5A then c + 32 else c

/-- A path without the slashes it ends in; the first character stays. -/
def trimSlashes : List UInt8 → List UInt8
  | [] => []
  | c :: rest => c :: (rest.reverse.dropWhile fun d => d = slash).reverse

/-- `canon`: the path in its checked form, or `none` when it is too long to judge. -/
def canon (path : List UInt8) : Option (List UInt8) :=
  if 192 ≤ path.length then none
  else some ((trimSlashes (pathResolve [slash] path 192)).map lower)

def protectSecret (path : List UInt8) : Bool :=
  match canon path with
  | none => true
  | some c => decide (c ∈ kSecret)

/-- A wildcard in the last component of a path in `/` or in `/os`. -/
def wildcardReaches (c : List UInt8) : Bool :=
  match c.reverse.dropWhile fun d => d ≠ slash with
  | [] => false
  | _ :: dir =>
    ((c.reverse.takeWhile fun d => d ≠ slash).any fun d => d = 0x2A ∨ d = 0x3F) &&
      (dir = [] || dir.reverse = kDir)

def protectReaches (path : List UInt8) : Bool :=
  match canon path with
  | none => true
  | some c => protectSecret c || c = [slash] || c = kDir || wildcardReaches c

/-! ### What a path names -/

/-- The normal form is a protected file, in any letter case. -/
def NamesSecret (p : List UInt8) : Prop := (normalForm p).map lower ∈ kSecret

instance (p : List UInt8) : Decidable (NamesSecret p) := inferInstanceAs (Decidable (_ ∈ _))

/-- The normal form is a protected file, the directory of these files or the root. -/
def NamesHolder (p : List UInt8) : Prop :=
  NamesSecret p ∨ (normalForm p).map lower = kDir ∨ normalForm p = [slash]

instance (p : List UInt8) : Decidable (NamesHolder p) := inferInstanceAs (Decidable (_ ∨ _))

/-- The two checks find out what a path names. -/
def Guarded (p : List UInt8) : Prop :=
  (NamesSecret p → protectSecret p = true) ∧ (NamesHolder p → protectReaches p = true)

instance (p : List UInt8) : Decidable (Guarded p) := inferInstanceAs (Decidable (_ ∧ _))

variable {p q c : List UInt8} {cs : List (List UInt8)}

/-! ### Lower case -/

example : lower 0x41 = 0x61 := by decide +kernel

theorem lower_slash : ∀ b : UInt8, lower b = slash ↔ b = slash := by decide +kernel

theorem lower_dot : ∀ b : UInt8, lower b = dot ↔ b = dot := by decide +kernel

theorem IsName.lower (name : IsName c) : IsName (c.map Path.lower) := by
  obtain ⟨full, noSlash, notDot, notDots⟩ := name
  refine ⟨by simpa using full, ?_, ?_, ?_⟩
  · intro h
    obtain ⟨b, hb, eq⟩ := List.mem_map.mp h
    exact noSlash ((lower_slash b).mp eq ▸ hb)
  · intro h
    obtain ⟨b, rfl⟩ := List.length_eq_one_iff.mp (by simpa using congrArg List.length h)
    rw [List.map_singleton, List.singleton_inj, lower_dot] at h
    exact notDot (h ▸ rfl)
  · intro h
    obtain ⟨a, b, rfl⟩ := List.length_eq_two.mp (by simpa using congrArg List.length h)
    simp only [List.map_cons, List.map_nil, List.cons.injEq, and_true, lower_dot] at h
    exact notDots (by rw [h.1, h.2])

theorem map_lower_render : (render cs).map lower = render (cs.map (List.map lower)) := by
  unfold render
  by_cases none : cs = []
  · rw [if_pos none, if_pos (by simpa using none)]
    decide
  · rw [if_neg none, if_neg (by simpa using none), List.map_flatMap, List.flatMap_map]
    have : lower slash = slash := by decide
    simp only [List.map_cons, this]

/-! ### The checked form -/

/-- A rendered path does not end in a slash. -/
theorem trimSlashes_render (names : ∀ c ∈ cs, IsName c) : trimSlashes (render cs) = render cs := by
  by_cases none : cs = []
  · simp [render, none, trimSlashes]
  · -- what stands last is the last character of the last component
    obtain ⟨init, last, rfl⟩ : ∃ init last, cs = init ++ [last] :=
      ⟨cs.dropLast, cs.getLast none, (List.dropLast_append_getLast none).symm⟩
    obtain ⟨full, noSlash, -, -⟩ := names last (by simp)
    obtain ⟨front, b, rfl⟩ : ∃ front b, last = front ++ [b] :=
      ⟨last.dropLast, last.getLast full, (List.dropLast_append_getLast full).symm⟩
    have notSlash : b ≠ slash := by
      rintro rfl
      simp at noSlash
    have shape : ∃ rest, render (init ++ [front ++ [b]]) = slash :: (rest ++ [b]) := by
      rw [render, if_neg none, List.flatMap_append]
      cases init with
      | nil => exact ⟨front, by simp⟩
      | cons c init =>
        exact ⟨c ++ (init.flatMap fun c => slash :: c) ++ slash :: front, by simp⟩
    obtain ⟨rest, eq⟩ := shape
    rw [eq, trimSlashes, List.reverse_append]
    simp [notSlash]

theorem joined_absolute (cwd q : List UInt8) : joined cwd (slash :: q) = slash :: q := by
  simp [joined]

/-- The checked form of a path whose normal form is short. -/
theorem canon_of_short (long : ¬192 ≤ (slash :: q).length)
    (short : (normalForm (slash :: q)).length < 192) :
    canon (slash :: q) = some (render ((parts (slash :: q)).map (List.map lower))) := by
  have le := length_render_le (parts_sublist (p := slash :: q))
  rw [canon, if_neg long, pathResolve, joined_absolute,
    List.take_of_length_le (l := slash :: q) (by omega),
    List.take_of_length_le (by unfold normalForm at short; omega),
    trimSlashes_render isName_parts, map_lower_render]

theorem canon_of_long (long : 192 ≤ p.length) : canon p = none := by rw [canon, if_pos long]

theorem components_lowered (p : List UInt8) :
    components ((normalForm p).map lower) = (normal p).map (List.map lower) := by
  rw [normalForm, map_lower_render]
  refine components_render fun c hc => ?_
  obtain ⟨d, hd, rfl⟩ := List.mem_map.mp hc
  exact (isName_normal d hd).lower

theorem components_checked (p : List UInt8) :
    components (render ((parts p).map (List.map lower))) = (parts p).map (List.map lower) := by
  refine components_render fun c hc => ?_
  obtain ⟨d, hd, rfl⟩ := List.mem_map.mp hc
  exact (isName_parts d hd).lower

theorem secret_shape : ∀ c ∈ kSecret, (components c).length = 2 ∧ c.length < 192 ∧
    protectSecret c = true := by decide +kernel

theorem NamesSecret.short (h : NamesSecret p) : (normalForm p).length < 192 := by
  simpa using (secret_shape _ h).2.1

theorem NamesSecret.length_normal (h : NamesSecret p) : (normal p).length = 2 := by
  have := (secret_shape _ h).1
  rw [components_lowered] at this
  simpa using this

/-- The first check finds a protected file exactly when the path is too long to judge or no
component of it is left out for good. -/
theorem protectSecret_iff (names : NamesSecret (slash :: q)) :
    protectSecret (slash :: q) = true ↔ 192 ≤ (slash :: q).length ∨ Kept (slash :: q) := by
  by_cases long : 192 ≤ (slash :: q).length
  · rw [protectSecret, canon_of_long long]
    exact iff_of_true rfl (.inl long)
  · rw [protectSecret, canon_of_short long names.short, or_iff_right long]
    simp only [decide_eq_true_eq]
    constructor
    · intro secret
      by_contra left
      have two := (secret_shape _ secret).1
      rw [components_checked, List.length_map] at two
      have := length_parts_lt left
      have := names.length_normal
      omega
    · intro kept
      rw [parts_eq_iff.mpr kept, ← map_lower_render]
      exact names

theorem protectReaches_of_canon (h : canon p = some c) : protectReaches p =
    (protectSecret c || c = [slash] || c = kDir || wildcardReaches c) := by
  rw [protectReaches, h]

/-- Both checks find out what an absolute path names exactly when it does not name a protected
file, is too long to judge, or has no component that is left out for good. -/
theorem guarded_iff (q : List UInt8) : Guarded (slash :: q) ↔
    (NamesSecret (slash :: q) → 192 ≤ (slash :: q).length ∨ Kept (slash :: q)) := by
  constructor
  · intro guarded names
    exact (protectSecret_iff names).mp (guarded.1 names)
  · intro found
    refine ⟨fun names => (protectSecret_iff names).mpr (found names), fun holder => ?_⟩
    by_cases long : 192 ≤ (slash :: q).length
    · rw [protectReaches, canon_of_long long]
    · rcases holder with secret | dir | root
      · have kept := (found secret).resolve_left long
        rw [protectReaches_of_canon (canon_of_short long secret.short), parts_eq_iff.mpr kept,
          ← map_lower_render]
        unfold NamesSecret normalForm at secret
        simp only [(secret_shape _ secret).2.2, Bool.true_or]
      · have one : (normal (slash :: q)).length = 1 := by
          have := congrArg List.length (components_lowered (slash :: q))
          rw [dir, List.length_map] at this
          rw [← this]
          decide
        have short : (normalForm (slash :: q)).length < 192 := by
          have := congrArg List.length dir
          rw [List.length_map] at this
          rw [this]
          decide
        rw [protectReaches_of_canon (canon_of_short long short)]
        by_cases kept : Kept (slash :: q)
        · rw [normalForm] at dir
          rw [parts_eq_iff.mpr kept, ← map_lower_render, dir]
          simp
        · -- what is left of one component is the root
          have none : parts (slash :: q) = [] :=
            List.eq_nil_of_length_eq_zero (by have := length_parts_lt kept; omega)
          simp [none, render]
      · have none : parts (slash :: q) = [] := by
          have := congrArg components root
          rw [normalForm, components_render isName_normal] at this
          have empty : normal (slash :: q) = [] := this
          exact List.sublist_nil.mp (empty ▸ parts_sublist)
        rw [protectReaches_of_canon (canon_of_short long (by rw [root]; decide)), none]
        simp [render]

theorem not_all_guarded : ¬∀ q, Guarded (slash :: q) := fun all =>
  absurd ((all detour.tail).1 (by decide +kernel)) (by decide +kernel)

end RPCortex.Path
