import RPCortex.Repo.Rendered

/-! A whole index: an object with an array of packages among its members. -/

namespace RPCortex.Repo

open Lib

/-- The members of a package with what stands in front of and behind them. -/
structure PackageObject where
  front : Str
  members : Members
  gap : Str

/-- The packages as the items of an array. -/
def itemsOf : List PackageObject → Items
  | [] => .nil
  | p :: ps => .cons (.obj p.front p.members) p.gap (itemsOf ps)

def Members.append : Members → Members → Members
  | .nil, more => more
  | .cons key colon v gap rest, more => .cons key colon v gap (rest.append more)

/-- The text of an index, with the packages and everything around them. -/
structure Rendering where
  lead : Str
  front : Str
  before : Members
  key : Str
  colon : Str
  open_ : Str
  packages : List PackageObject
  gap : Str
  after : Members
  trail : Str

namespace Rendering

variable (r : Rendering)

def tree : Json :=
  .obj r.front (r.before.append (.cons r.key r.colon (.arr r.open_ (itemsOf r.packages)) r.gap r.after))

def text : Str := r.lead ++ (r.tree.render ++ r.trail)

/-- The text is JSON, and the packages are those of its member `packages`. -/
structure Valid : Prop where
  lead : Ws r.lead
  trail : Ws r.trail
  tree : r.tree.Valid
  key : Spells r.key (ascii "packages")

/-- What stands in front of the key of the packages. -/
def head : Str := r.lead ++ 0x7B :: (r.front ++ r.before.render)

/-- The key of the packages is written plainly and nothing in front of it reads like it; every member of a
package is clear, and no key is a field's in another spelling. -/
structure Tolerated : Prop where
  key : r.key = ascii "packages"
  first : ∀ n < r.head.length, (ascii "\"packages\"").isPrefixOf (r.text.drop n) = false
  clear : ∀ p ∈ r.packages, ∀ m ∈ p.members.toList, Clear m ∧ Unambiguous m

/-- The packages of the index. -/
def Lists (es : List RepoEntry) : Prop :=
  List.Forall₂ (fun p e => Describes p.members.toList e) r.packages es

end Rendering

variable {r : Rendering}

/-! ### The array -/

theorem Members.render_append : (ms more : Members) → (ms.append more).render = ms.render ++ more.render
  | .nil, _ => rfl
  | .cons key colon v gap rest, more => by
    simp [Members.append, Members.render, Members.render_append rest more]

theorem Members.Valid.among {key colon gap : Str} {v : Json} {after : Members} : (before : Members) →
    (before.append (.cons key colon v gap after)).Valid → Separated 0x3A colon ∧ v.Valid
  | .nil, valid => by
    cases after with
    | nil => exact ⟨valid.2.1, valid.2.2.1⟩
    | cons k c v' g rest => exact ⟨valid.2.1, valid.2.2.1⟩
  | .cons _ _ _ _ .nil, valid => Members.Valid.among .nil valid.2.2.2.2
  | .cons _ _ _ _ (.cons k c v' g rest), valid => Members.Valid.among (.cons k c v' g rest) valid.2.2.2.2

/-- A text with neither a brace nor a bracket that `repo_walk` stops at. -/
def Bare (s : Str) : Prop := ∀ c ∈ s, c ≠ 0x7B ∧ c ≠ 0x5D ∧ c ≠ 0x5B

theorem Ws.bare {s : Str} (h : Ws s) : Bare s := by
  intro c mem
  rcases h c mem with rfl | rfl | rfl | rfl
  · decide
  · decide
  · decide
  · decide

theorem Separated.bare {sep : UInt8} {gap : Str} (h : Separated sep gap)
    (plain : sep ≠ 0x7B ∧ sep ≠ 0x5D ∧ sep ≠ 0x5B) : Bare gap := by
  obtain ⟨a, b, ha, hb, rfl⟩ := h
  intro c mem
  rcases List.mem_append.mp mem with mem | mem
  · exact ha.bare c mem
  · rcases List.mem_cons.mp mem with rfl | mem
    · exact plain
    · exact hb.bare c mem

theorem Items.Valid.packages {ps : List PackageObject} (valid : (itemsOf ps).Valid) :
    ∀ p ∈ ps, Ws p.front ∧ p.members.Valid ∧ Bare p.gap := by
  induction ps with
  | nil => exact fun _ no => absurd no List.not_mem_nil
  | cons p ps ih =>
    cases ps with
    | nil =>
      intro q mem
      obtain rfl := List.mem_singleton.mp mem
      exact ⟨valid.1.1, valid.1.2, valid.2.bare⟩
    | cons p' ps =>
      intro q mem
      rcases List.mem_cons.mp mem with rfl | mem
      · exact ⟨valid.1.1, valid.1.2, valid.2.1.bare (by decide)⟩
      · exact ih valid.2.2 q mem

theorem skip_bare {gap : Str} (bare : Bare gap) (s : Str) :
    (gap ++ s).dropWhile (fun c => c ≠ 0x7B && c ≠ 0x5D) = s.dropWhile fun c => c ≠ 0x7B && c ≠ 0x5D :=
  List.dropWhile_append_of_pos fun c mem => by
    have := bare c mem
    simp [this.1, this.2.1]

/-- The fields of a package object. -/
theorem fields_package {front : Str} {members : Members} (blank : Ws front) (valid : members.Valid)
    (clear : ∀ m ∈ members.toList, Clear m) :
    fields (front ++ members.render) = members.toList.foldl readMember (.blank, false) := by
  rw [show fields (front ++ members.render) = scan (.blank, false) (front ++ members.render) from rfl,
    scan_skip blank.inert.noQuote]
  exact scan_members members valid.loose valid.gapped clear _

/-- The entries of an array of packages. -/
theorem entriesFrom_packages {ps : List PackageObject} {es : List RepoEntry} {fuel : Nat} {gap rest : Str}
    (describes : List.Forall₂ (fun p e => Describes p.members.toList e) ps es)
    (valid : ∀ p ∈ ps, Ws p.front ∧ p.members.Valid ∧ Bare p.gap)
    (clear : ∀ p ∈ ps, ∀ m ∈ p.members.toList, Clear m ∧ Unambiguous m) (bare : Bare gap)
    (enough : ps.length < fuel) :
    entriesFrom fuel (gap ++ ((itemsOf ps).render ++ 0x5D :: rest)) = es.filterMap reported := by
  induction describes generalizing fuel gap with
  | nil =>
    obtain ⟨fuel, rfl⟩ : ∃ n, fuel = n + 1 := ⟨fuel - 1, by omega⟩
    rw [entriesFrom, skip_bare bare]
    rfl
  | @cons p e ps es described _ ih =>
    rw [List.length_cons] at enough
    obtain ⟨fuel, rfl⟩ : ∃ n, fuel = n + 1 := ⟨fuel - 1, by omega⟩
    obtain ⟨blank, validP, bareP⟩ := valid p (by simp)
    have shape : (itemsOf (p :: ps)).render ++ 0x5D :: rest = 0x7B :: (p.front ++ (p.members.render ++
        0x7D :: (p.gap ++ ((itemsOf ps).render ++ 0x5D :: rest)))) := by
      simp [itemsOf, Items.render, Json.render]
    have body := objectBody_members blank.inert (Members.Valid.loose _ validP)
      (p.gap ++ ((itemsOf ps).render ++ 0x5D :: rest))
    have entry := entry_described described (fun m mem => (clear p (by simp) m mem).1)
      fun m mem => (clear p (by simp) m mem).2
    have more := ih (fun q mem => valid q (by simp [mem])) (fun q mem => clear q (by simp [mem])) bareP
      (show ps.length < fuel by omega)
    rw [entriesFrom, skip_bare bare, shape, List.dropWhile_cons_of_neg (by decide)]
    simp only
    rw [if_neg (by decide), body]
    simp only
    rw [fields_package blank validP fun m mem => (clear p (by simp) m mem).1, more, List.filterMap_cons, ← entry]
    split
    · rfl
    · rfl

/-! ### The key of the array -/

/-- The first key that reads like that of the packages. -/
theorem behindPackages_first {head more : Str} (some_ : more ≠ [])
    (first : ∀ n < head.length, (ascii "\"packages\"").isPrefixOf
      ((head ++ (ascii "\"packages\"" ++ more)).drop n) = false) :
    behindPackages (head ++ (ascii "\"packages\"" ++ more)) = some more := by
  induction head with
  | nil =>
    have long : 10 < (ascii "\"packages\"" ++ more).length := by
      rw [List.length_append]
      have : (ascii "\"packages\"").length = 10 := by decide
      have := List.length_pos_iff.mpr some_
      omega
    have begins : (ascii "\"packages\"").isPrefixOf (ascii "\"packages\"" ++ more) = true := by
      rw [List.isPrefixOf_iff_prefix]
      exact List.prefix_append _ _
    have cut : (ascii "\"packages\"" ++ more).drop 10 = more :=
      List.drop_left' (show (ascii "\"packages\"").length = 10 by decide)
    rw [List.nil_append]
    generalize ascii "\"packages\"" ++ more = s at long begins cut
    cases s with
    | nil => cases long
    | cons c s => rw [behindPackages, begins, if_pos (by simpa using long), cut]
  | cons c head ih =>
    have here := first 0 (by simp)
    rw [List.drop_zero, List.cons_append] at here
    rw [List.cons_append, behindPackages, here, if_neg (by simp)]
    exact ih fun n lt => first (n + 1) (by simpa using lt)

/-- Every rendering of the packages is read alike, when it is tolerated. -/
theorem repoWalk_rendering (valid : r.Valid) (tolerated : r.Tolerated) {es : List RepoEntry}
    (lists : r.Lists es) : repoWalk r.text = es.filterMap reported := by
  obtain ⟨colon, list⟩ := Members.Valid.among r.before valid.tree.2
  obtain ⟨blank, items⟩ : Ws r.open_ ∧ (itemsOf r.packages).Valid := list
  have shape : r.text = r.head ++ (ascii "\"packages\"" ++ (r.colon ++ 0x5B :: (r.open_ ++
      ((itemsOf r.packages).render ++ 0x5D :: (r.gap ++ (r.after.render ++ 0x7D :: r.trail)))))) := by
    have key : ascii "\"packages\"" = quote :: (ascii "packages" ++ [quote]) := by decide
    rw [key]
    simp [Rendering.text, Rendering.tree, Rendering.head, Json.render, Members.render_append, Members.render,
      tolerated.key]
  have first := tolerated.first
  rw [shape] at first ⊢
  rw [repoWalk, behindPackages_first (by simp) first]
  simp only
  rw [List.dropWhile_append_of_pos fun c mem => by simpa using (colon.bare (by decide) c mem).2.2,
    List.dropWhile_cons_of_neg (by simp), List.drop_one, List.tail_cons]
  refine entriesFrom_packages lists items.packages tolerated.clear blank.bare ?_
  have many : r.packages.length ≤ (itemsOf r.packages).render.length := by
    generalize r.packages = ps
    induction ps with
    | nil => exact Nat.zero_le _
    | cons p ps ih =>
      simp only [itemsOf, Items.render, Json.render, List.length_append, List.length_cons]
      omega
  simp only [List.length_append, List.length_cons]
  omega

/-! ### One package, with a gap between its name's key and value -/

theorem spells_means {raw value : Str} (h : Spells raw value)
    (simple : (simpleEscapes raw.length raw && unescape raw == raw) = true) : value = raw := by
  rw [Bool.and_eq_true, beq_iff_eq] at simple
  obtain ⟨same, _, short⟩ := h.unescape simple.1
  rw [simple.2] at same short
  rwa [List.take_length, List.take_of_length_le (short.mp le_rfl), eq_comm] at same

def sampleMembers (colon : Str) : Members :=
  .cons (ascii "name") colon (.str (ascii "a")) (ascii ",")
    (.cons (ascii "tags") (ascii ":") (.arr [] (.cons (.str (ascii "x")) [] .nil)) (ascii ", ")
      (.cons (ascii "url") (ascii ":") (.str (ascii "u")) [] .nil))

def sample (colon : Str) : Rendering where
  lead := []
  front := []
  before := .nil
  key := ascii "packages"
  colon := ascii ":"
  open_ := []
  packages := [⟨[], sampleMembers colon, []⟩]
  gap := []
  after := .nil
  trail := []

def sampleEntry : RepoEntry := { RepoEntry.blank with name := ascii "a", url := ascii "u" }

example : repoWalk [] = [] := by decide +kernel

theorem sample_valid {colon : Str} (separated : Separated 0x3A colon) : (sample colon).Valid := by
  have none_ : Ws [] := fun _ no => absurd no List.not_mem_nil
  have blank : Ws (ascii " ") := fun c mem => .inl (by simpa [ascii] using mem)
  have plain : Separated 0x3A (ascii ":") := ⟨[], [], none_, none_, rfl⟩
  have url : (Members.cons (ascii "url") (ascii ":") (.str (ascii "u")) [] .nil).Valid :=
    ⟨⟨_, spells_self (by decide +kernel)⟩, plain, ⟨_, spells_self (by decide +kernel)⟩, none_⟩
  have tags : (Json.arr [] (.cons (.str (ascii "x")) [] .nil)).Valid :=
    ⟨none_, ⟨_, spells_self (by decide +kernel)⟩, none_⟩
  have members : (sampleMembers colon).Valid :=
    ⟨⟨_, spells_self (by decide +kernel)⟩, separated, ⟨_, spells_self (by decide +kernel)⟩, ⟨[], [], none_, none_, rfl⟩,
      ⟨_, spells_self (by decide +kernel)⟩, plain, tags, ⟨[], ascii " ", none_, blank, rfl⟩, url⟩
  have key : Spells (ascii "packages") (ascii "packages") := spells_self (by decide +kernel)
  exact ⟨none_, none_, ⟨none_, ⟨_, key⟩, plain, ⟨none_, ⟨none_, members⟩, none_⟩, none_⟩, key⟩

theorem toList_sampleMembers (colon : Str) : (sampleMembers colon).toList =
    [(ascii "name", colon, .str (ascii "a")),
      (ascii "tags", ascii ":", .arr [] (.cons (.str (ascii "x")) [] .nil)),
      (ascii "url", ascii ":", .str (ascii "u"))] := rfl

theorem sample_lists (colon : Str) : (sample colon).Lists [sampleEntry] := by
  refine .cons ?_ .nil
  rw [toList_sampleMembers]
  refine ⟨?_, ?_, ?_, fun _ => rfl⟩
  · intro m mem f k known spells
    simp only [List.mem_cons, List.not_mem_nil, or_false] at mem
    rcases mem with rfl | rfl | rfl
    · obtain rfl : k = ascii "name" := spells_means spells (by decide +kernel)
      cases f with
      | name => exact ⟨_, rfl, spells_self (by decide +kernel)⟩
      | _ => exact absurd known (by decide +kernel)
    · obtain rfl : k = ascii "tags" := spells_means spells (by decide +kernel)
      cases f <;> exact absurd known (by decide +kernel)
    · obtain rfl : k = ascii "url" := spells_means spells (by decide +kernel)
      cases f with
      | url => exact ⟨_, rfl, spells_self (by decide +kernel)⟩
      | _ => exact absurd known (by decide +kernel)
  · intro f missing
    cases f with
    | name =>
      have spells : Spells (ascii "name") (ascii "name") := spells_self (by decide +kernel)
      exact absurd spells (missing _ (.head _) _ (.head _))
    | url =>
      have spells : Spells (ascii "url") (ascii "url") := spells_self (by decide +kernel)
      exact absurd spells (missing _ (.tail _ (.tail _ (.head _))) _ (.head _))
    | _ => rfl
  · intro m mem spells
    simp only [List.mem_cons, List.not_mem_nil, or_false] at mem
    rcases mem with rfl | rfl | rfl
    · have no : ascii "size" = ascii "name" := spells_means spells (by decide +kernel)
      exact absurd no (by decide +kernel)
    · have no : ascii "size" = ascii "tags" := spells_means spells (by decide +kernel)
      exact absurd no (by decide +kernel)
    · have no : ascii "size" = ascii "url" := spells_means spells (by decide +kernel)
      exact absurd no (by decide +kernel)

theorem repoWalk_rendering_space :
    repoWalk (sample (ascii ": ")).text = [sampleEntry].filterMap reported := by
  refine repoWalk_rendering (sample_valid ⟨[], ascii " ", fun _ no => absurd no List.not_mem_nil, ?_, rfl⟩)
    ⟨rfl, by decide +kernel, ?_⟩ (sample_lists _)
  · exact fun c mem => .inl (by simpa [ascii] using mem)
  intro p only m mem
  obtain rfl := List.mem_singleton.mp only
  rw [toList_sampleMembers] at mem
  simp only [List.mem_cons, List.not_mem_nil, or_false] at mem
  rcases mem with rfl | rfl | rfl
  · refine ⟨.inl ⟨by decide +kernel, by decide +kernel, by decide +kernel⟩, ?_, ?_⟩
    · exact fun f k known spells => (spells_means spells (by decide +kernel)).symm
    · exact fun spells => (spells_means spells (by decide +kernel)).symm
  · refine ⟨⟨by decide +kernel, ⟨show ascii "x" ≠ ascii "size" by decide +kernel, trivial⟩⟩, ?_, ?_⟩
    · exact fun f k known spells => (spells_means spells (by decide +kernel)).symm
    · exact fun spells => (spells_means spells (by decide +kernel)).symm
  · refine ⟨.inl ⟨by decide +kernel, by decide +kernel, by decide +kernel⟩, ?_, ?_⟩
    · exact fun f k known spells => (spells_means spells (by decide +kernel)).symm
    · exact fun spells => (spells_means spells (by decide +kernel)).symm

theorem not_all_renderings_alike : ¬∀ (r : Rendering) (es : List RepoEntry), r.Valid → r.Lists es →
    repoWalk r.text = es.filterMap reported := by
  intro alike
  have same := alike (sample (ascii ":\n")) [sampleEntry]
    (sample_valid ⟨[], ascii "\n", fun _ no => absurd no List.not_mem_nil, ?_, rfl⟩) (sample_lists _)
  · exact absurd same (by decide +kernel)
  · intro c mem
    exact .inr (.inr (.inl (by simpa [ascii] using mem)))

end RPCortex.Repo
