import RPCortex.Lib.Stack
import RPCortex.Lib.Text

/-! `path_resolve` of `path.cpp` and the lexical normal form it stands for.  The function works on
a copy of 191 characters and keeps at most 16 components of at most 39 characters each. -/

namespace RPCortex.Path

open Lib

abbrev slash : UInt8 := 0x2F

abbrev dot : UInt8 := 0x2E

/-- The components between slashes that are not empty. -/
def components (p : List UInt8) : List (List UInt8) :=
  (splitLines slash p).filter fun c => c ≠ []

/-- What a component does to the components before it; `"."` does nothing. -/
def moveOf (c : List UInt8) : Option (Move (List UInt8)) :=
  if c = [dot] then none
  else if c = [dot, dot] then some .pop
  else some (.push c)

def movesOf (p : List UInt8) : List (Move (List UInt8)) := (components p).filterMap moveOf

/-- An absolute path with the given components. -/
def render (parts : List (List UInt8)) : List UInt8 :=
  if parts = [] then [slash] else parts.flatMap fun c => slash :: c

/-- The argument as an absolute path. -/
def joined (cwd inp : List UInt8) : List UInt8 :=
  if inp.head? = some slash then inp
  else if cwd = [slash] then slash :: inp
  else cwd ++ slash :: inp

/-! ### The code -/

/-- `parts[16][40]`: whether there is a row left and the component and its NUL fit in it. -/
def fits (parts : List (List UInt8)) (c : List UInt8) : Bool :=
  decide (parts.length < 16 ∧ c.length < 40)

/-- The components that `path_resolve` is left with, of a path in `char work[192]`. -/
def parts (work : List UInt8) : List (List UInt8) := (stackIf fits (movesOf work)).reverse

/-- `path_resolve`, of an output buffer with room for at least the NUL. -/
def pathResolve (cwd inp : List UInt8) (cap : Nat) : List UInt8 :=
  -- `snprintf` cuts what it copies to `work` and to `out`
  (render (parts ((joined cwd inp).take 191))).take (cap - 1)

/-! ### The normal form -/

/-- The components of the lexical normal form. -/
def normal (p : List UInt8) : List (List UInt8) := (stack (movesOf p)).reverse

/-- The lexical normal form. -/
def normalForm (p : List UInt8) : List UInt8 := render (normal p)

/-- A component that a normal form may have. -/
def IsName (c : List UInt8) : Prop := c ≠ [] ∧ slash ∉ c ∧ c ≠ [dot] ∧ c ≠ [dot, dot]

variable {p q c : List UInt8} {cs ds : List (List UInt8)} {cwd inp : List UInt8} {cap : Nat}

/-! ### Components -/

theorem notMem_of_mem_splitLines {c : List UInt8} (h : c ∈ splitLines slash p) : slash ∉ c := by
  induction p generalizing c with
  | nil => cases h
  | cons b p ih =>
    rw [splitLines] at h
    split at h
    · rcases List.mem_cons.mp h with rfl | h
      · exact List.not_mem_nil
      · exact ih h
    · rename_i ne
      cases hs : splitLines slash p with
      | nil =>
        rw [hs] at h
        obtain rfl := List.mem_singleton.mp h
        simpa using Ne.symm ne
      | cons line lines =>
        rw [hs] at h ih
        rcases List.mem_cons.mp h with rfl | h
        · rw [List.mem_cons, not_or]
          exact ⟨Ne.symm ne, ih (by simp)⟩
        · exact ih (by simp [h])

/-- A move of a path pushes names only. -/
theorem isName_of_push (h : Move.push c ∈ movesOf p) : IsName c := by
  obtain ⟨d, mem, eq⟩ := List.mem_filterMap.mp h
  obtain ⟨line, full⟩ := List.mem_filter.mp mem
  unfold moveOf at eq
  split at eq
  · cases eq
  · split at eq
    · cases eq
    · rename_i notDot notDots
      obtain rfl : d = c := by simpa using eq
      exact ⟨by simpa using full, notMem_of_mem_splitLines line, notDot, notDots⟩

theorem components_cons (name : IsName c) (q : List UInt8) :
    components (slash :: (c ++ slash :: q)) = c :: components (slash :: q) := by
  have first : splitLines slash (slash :: (c ++ slash :: q)) =
      [] :: c :: splitLines slash q := by
    rw [splitLines, if_pos rfl, splitLines_append name.2.1]
  have second : splitLines slash (slash :: q) = [] :: splitLines slash q := by
    rw [splitLines, if_pos rfl]
  simp [components, first, second, name.1]

theorem components_last (name : IsName c) : components (slash :: c) = [c] := by
  have : splitLines slash (slash :: c) = [[], c] := by
    rw [splitLines, if_pos rfl, splitLines_last name.2.1 name.1]
  simp [components, this, name.1]

/-- A rendered path has the components it was made of. -/
theorem components_render (names : ∀ c ∈ cs, IsName c) : components (render cs) = cs := by
  induction cs with
  | nil => decide
  | cons c cs ih =>
    have name := names c (by simp)
    have rest := ih fun d hd => names d (by simp [hd])
    cases cs with
    | nil =>
      rw [render, if_neg (by simp)]
      simpa using components_last name
    | cons d ds =>
      rw [render, if_neg (by simp)] at rest ⊢
      simp only [List.flatMap_cons, List.cons_append] at rest ⊢
      rw [components_cons name, rest]

theorem render_inj (left : ∀ c ∈ cs, IsName c) (right : ∀ c ∈ ds, IsName c) :
    render cs = render ds ↔ cs = ds := by
  refine ⟨fun same => ?_, congrArg render⟩
  rw [← components_render left, same, components_render right]

theorem isName_normal : ∀ c ∈ normal p, IsName c := fun c hc =>
  forall_stack (fun _ => isName_of_push) c (List.mem_reverse.mp hc)

theorem isName_parts : ∀ c ∈ parts p, IsName c := fun c hc =>
  forall_stackIf (fun _ _ push _ => isName_of_push push) c (List.mem_reverse.mp hc)

/-! ### Length -/

theorem length_flatMap_le (h : cs.Sublist ds) :
    (cs.flatMap fun c => slash :: c).length ≤ (ds.flatMap fun c => slash :: c).length := by
  induction h with
  | slnil => exact le_refl _
  | cons a _ ih =>
    rw [List.flatMap_cons, List.length_append]
    omega
  | cons_cons a _ ih =>
    rw [List.flatMap_cons, List.flatMap_cons, List.length_append, List.length_append]
    omega

/-- Fewer components make a path that is no longer. -/
theorem length_render_le (h : cs.Sublist ds) : (render cs).length ≤ (render ds).length := by
  by_cases none : cs = []
  · have one : (render cs).length = 1 := by simp [render, none]
    rw [one]
    unfold render
    split
    · simp
    · rename_i some
      obtain ⟨d, rest, rfl⟩ := List.exists_cons_of_ne_nil some
      simp
  · have some : ds ≠ [] := by
      rintro rfl
      exact none (List.sublist_nil.mp h)
    rw [render, if_neg none, render, if_neg some]
    exact length_flatMap_le h

theorem parts_sublist : (parts p).Sublist (normal p) := (stackIf_sublist _).reverse

/-! ### When the code finds the normal form -/

/-- No component was left out since the path was last back at the root. -/
def Kept (p : List UInt8) : Prop := intact fits (movesOf p) = true

instance : Decidable (Kept p) := inferInstanceAs (Decidable (_ = true))

theorem parts_eq_iff : parts p = normal p ↔ Kept p := by
  rw [parts, normal, List.reverse_inj]
  exact stackIf_eq_iff

theorem length_parts_lt (h : ¬Kept p) : (parts p).length < (normal p).length := by
  rw [parts, normal, List.length_reverse, List.length_reverse]
  exact length_stackIf_lt h

/-- `path_resolve` gives the normal form of its argument. -/
def Resolves (cwd inp : List UInt8) (cap : Nat) : Prop :=
  pathResolve cwd inp cap = normalForm (joined cwd inp)

instance : Decidable (Resolves cwd inp cap) := inferInstanceAs (Decidable (_ = _))

/-- The part of the path that the code copies has the normal form of the whole path, and no
component of it is left out for good. -/
def Followed (p : List UInt8) : Prop := Kept (p.take 191) ∧ normal (p.take 191) = normal p

/-- A result that fits is the normal form when the copied part of the path decides it and none of
its components is left out; of a path that is copied whole it is the normal form only then. -/
theorem pathResolve_normal (cwd inp : List UInt8) (cap : Nat)
    (fit : (normalForm (joined cwd inp)).length < cap) :
    (Followed (joined cwd inp) → Resolves cwd inp cap) ∧
      ((joined cwd inp).length ≤ 191 → Resolves cwd inp cap → Followed (joined cwd inp)) := by
  constructor
  · rintro ⟨kept, same⟩
    rw [Resolves, pathResolve, parts_eq_iff.mpr kept, same]
    exact List.take_of_length_le (by unfold normalForm at fit; omega)
  · intro whole resolves
    rw [Followed, List.take_of_length_le whole]
    refine ⟨?_, rfl⟩
    rw [Resolves, pathResolve, List.take_of_length_le whole, normalForm] at resolves
    have short := length_render_le (parts_sublist (p := joined cwd inp))
    rw [List.take_of_length_le (by unfold normalForm at fit; omega),
      render_inj isName_parts isName_normal] at resolves
    exact parts_eq_iff.mp resolves

example : (normalForm [slash]).length = 1 := by decide +kernel

theorem pathResolve_normal_dots :
    (normalForm (joined (ascii "/b") (ascii "./c/../d"))).length < 128 ∧
      (Followed (joined (ascii "/b") (ascii "./c/../d")) →
        Resolves (ascii "/b") (ascii "./c/../d") 128) ∧
      ((joined (ascii "/b") (ascii "./c/../d")).length ≤ 191 →
        Resolves (ascii "/b") (ascii "./c/../d") 128 →
          Followed (joined (ascii "/b") (ascii "./c/../d"))) :=
  ⟨by decide +kernel, pathResolve_normal _ _ _ (by decide +kernel)⟩

/-- A component of 40 characters is left out, and the `..` behind it takes the one before. -/
def detour : List UInt8 := ascii "/os/" ++ List.replicate 40 0x78 ++ ascii "/../users.cfg"

theorem not_all_resolve : ¬∀ cwd inp cap, (normalForm (joined cwd inp)).length < cap →
    Resolves cwd inp cap := fun all =>
  absurd (all [slash] detour 128 (by decide +kernel)) (by decide +kernel)

end RPCortex.Path
