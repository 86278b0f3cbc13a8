import RPCortex.Repo.Json

/-! What `repo_walk` finds in an object: of a member that it knows the value, when only spaces stand around
the colon, and of every other one nothing, when no text in it looks like a member that it knows. -/

namespace RPCortex.Repo

open Lib

/-! ### What the scanners pass over -/

/-- Characters that neither open nor close anything. -/
def Inert (s : Str) : Prop := ∀ c ∈ s, c ≠ quote ∧ c ≠ 0x7B ∧ c ≠ 0x7D

mutual

/-- What the scanners need of a valid tree. -/
def Json.Loose : Json → Prop
  | .str raw => Raw raw
  | .atom text => Inert text ∧ text ≠ [] ∧ ∀ c ∈ text, c ≠ 0x20 ∧ c ≠ 0x3A
  | .arr front items => Inert front ∧ items.Loose
  | .obj front members => Inert front ∧ members.Loose

def Items.Loose : Items → Prop
  | .nil => True
  | .cons v gap rest => v.Loose ∧ Inert gap ∧ (comma ∈ gap ∨ rest = .nil) ∧ rest.Loose

def Members.Loose : Members → Prop
  | .nil => True
  | .cons key colon v gap rest =>
    Raw key ∧ Inert colon ∧ v.Loose ∧ Inert gap ∧ (comma ∈ gap ∨ rest = .nil) ∧ rest.Loose

end

theorem Inert.noQuote {s : Str} (h : Inert s) : quote ∉ s := fun mem => (h _ mem).1 rfl

theorem Ws.inert {s : Str} (h : Ws s) : Inert s := by
  intro c mem
  rcases h c mem with rfl | rfl | rfl | rfl
  · decide
  · decide
  · decide
  · decide

theorem Separated.inert {sep : UInt8} {gap : Str} (h : Separated sep gap)
    (plain : sep ≠ quote ∧ sep ≠ 0x7B ∧ sep ≠ 0x7D) : Inert gap := by
  obtain ⟨a, b, ha, hb, rfl⟩ := h
  intro c mem
  rcases List.mem_append.mp mem with mem | mem
  · exact ha.inert c mem
  · rcases List.mem_cons.mp mem with rfl | mem
    · exact plain
    · exact hb.inert c mem

theorem Separated.mem {sep : UInt8} {gap : Str} (h : Separated sep gap) : sep ∈ gap := by
  obtain ⟨a, b, _, _, rfl⟩ := h
  simp

/-- A character of an atom. -/
def atomChar (c : UInt8) : Bool :=
  c ≠ quote && c ≠ 0x7B && c ≠ 0x7D && c ≠ 0x20 && c ≠ 0x3A

example : atomChar 0x2D = true := by decide +kernel

theorem Number.plain {text : Str} {n : ℚ} (number : Number text n) :
    text ≠ [] ∧ ∀ c ∈ text, atomChar c = true := by
  obtain @⟨whole, frac, power, minus, mark_, sign, down, ⟨some_, all⟩, _, mark⟩ := number
  have plain : ∀ c, isDigit c = true → atomChar c = true := by decide +kernel
  refine ⟨by simp [some_], fun c mem => ?_⟩
  simp only [List.mem_append] at mem all
  rcases mem with ((((mem | mem) | mem) | mem) | mem) | mem
  · cases minus with
    | false => cases mem
    | true =>
      obtain rfl := List.mem_singleton.mp mem
      decide
  · exact plain c (all c (Or.inl (Or.inl mem)))
  · split at mem
    · cases mem
    · rcases List.mem_cons.mp mem with rfl | mem
      · decide
      · exact plain c (all c (Or.inl (Or.inr mem)))
  · rcases mark with ⟨rfl, _⟩ | ⟨rfl | rfl, _⟩
    · cases mem
    · obtain rfl := List.mem_singleton.mp mem
      decide
    · obtain rfl := List.mem_singleton.mp mem
      decide
  · rcases mark with ⟨_, _, rfl, _⟩ | ⟨_, _, ⟨rfl, _⟩ | ⟨rfl, _⟩ | ⟨rfl, _⟩⟩
    · cases mem
    · cases mem
    · obtain rfl := List.mem_singleton.mp mem
      decide
    · obtain rfl := List.mem_singleton.mp mem
      decide
  · exact plain c (all c (Or.inr mem))

theorem IsAtom.plain {text : Str} (h : IsAtom text) : text ≠ [] ∧ ∀ c ∈ text, atomChar c = true := by
  rcases h with rfl | rfl | rfl | ⟨n, number⟩
  · exact ⟨by decide, by decide +kernel⟩
  · exact ⟨by decide, by decide +kernel⟩
  · exact ⟨by decide, by decide +kernel⟩
  · exact number.plain

theorem IsAtom.loose {text : Str} (h : IsAtom text) : (Json.atom text).Loose := by
  obtain ⟨ne, plain⟩ := h.plain
  simp only [atomChar, Bool.and_eq_true, decide_eq_true_eq] at plain
  exact ⟨fun c mem => ⟨(plain c mem).1.1.1.1, (plain c mem).1.1.1.2, (plain c mem).1.1.2⟩, ne,
    fun c mem => ⟨(plain c mem).1.2, (plain c mem).2⟩⟩

mutual

theorem Json.Valid.loose : (v : Json) → v.Valid → v.Loose
  | .str _, ⟨_, spells⟩ => spells.raw
  | .atom _, atom => IsAtom.loose atom
  | .arr _ items, ⟨front, valid⟩ => ⟨front.inert, Items.Valid.loose items valid⟩
  | .obj _ members, ⟨front, valid⟩ => ⟨front.inert, Members.Valid.loose members valid⟩

theorem Items.Valid.loose : (items : Items) → items.Valid → items.Loose
  | .nil, _ => trivial
  | .cons v _ .nil, ⟨valid, gap⟩ => ⟨Json.Valid.loose v valid, gap.inert, Or.inr rfl, trivial⟩
  | .cons v _ (.cons v' gap' rest), ⟨valid, gap, more⟩ =>
    ⟨Json.Valid.loose v valid, gap.inert (by decide), Or.inl gap.mem, Items.Valid.loose (.cons v' gap' rest) more⟩

theorem Members.Valid.loose : (members : Members) → members.Valid → members.Loose
  | .nil, _ => trivial
  | .cons _ _ v _ .nil, ⟨⟨_, key⟩, colon, valid, gap⟩ =>
    ⟨key.raw, colon.inert (by decide), Json.Valid.loose v valid, gap.inert, Or.inr rfl, trivial⟩
  | .cons _ _ v _ (.cons k c v' g rest), ⟨⟨_, key⟩, colon, valid, gap, more⟩ =>
    ⟨key.raw, colon.inert (by decide), Json.Valid.loose v valid, gap.inert (by decide), Or.inl gap.mem,
      Members.Valid.loose (.cons k c v' g rest) more⟩

end

/-! ### The end of an object -/

/-- A result with a text in front of it. -/
def behind (s : Str) (r : Option (Str × Str)) : Option (Str × Str) := r.map fun r => (s ++ r.1, r.2)

theorem behind_append (s t : Str) (r : Option (Str × Str)) : behind (s ++ t) r = behind s (behind t r) := by
  cases r with
  | none => rfl
  | some r => simp [behind]

theorem objectBody_inert {s : Str} (h : Inert s) (depth : Nat) (rest : Str) :
    objectBody depth false (s ++ rest) = behind s (objectBody depth false rest) := by
  induction s with
  | nil => cases hr : objectBody depth false rest <;> simp [behind, hr]
  | cons c s ih =>
    obtain ⟨q, open_, close⟩ := h c (by simp)
    rw [List.cons_append, objectBody, if_neg q, if_neg open_, if_neg close,
      ih fun d mem => h d (by simp [mem])]
    cases objectBody depth false rest with
    | none => rfl
    | some r => rfl

theorem objectBody_char {c : UInt8} (plain : c ≠ quote ∧ c ≠ backslash) (depth : Nat) (s : Str) :
    objectBody depth true (c :: s) = behind [c] (objectBody depth true s) := by
  cases s with
  | nil => simp [objectBody, plain.1, plain.2, behind]
  | cons d s => simp [objectBody, plain.1, plain.2, behind]

theorem objectBody_escape (depth : Nat) (d : UInt8) (s : Str) :
    objectBody depth true (backslash :: d :: s) = behind [backslash, d] (objectBody depth true s) := by
  simp [objectBody, behind, show backslash ≠ quote by decide]

theorem objectBody_close (depth : Nat) (s : Str) :
    objectBody depth true (quote :: s) = behind [quote] (objectBody depth false s) := by
  cases s with
  | nil => simp [objectBody, behind]
  | cons d s => simp [objectBody, behind]

theorem objectBody_raw {raw : Str} (h : Raw raw) (depth : Nat) (rest : Str) :
    objectBody depth true (raw ++ quote :: rest) = behind (raw ++ [quote]) (objectBody depth false rest) := by
  induction h with
  | nil => exact objectBody_close depth rest
  | char plain _ ih => rw [List.cons_append, objectBody_char plain, ih, ← behind_append]; rfl
  | escape _ ih =>
    rw [List.cons_append, List.cons_append, objectBody_escape, ih, ← behind_append]
    rfl

/-- A string with its quotes. -/
theorem objectBody_string {raw : Str} (h : Raw raw) (depth : Nat) (rest : Str) :
    objectBody depth false (quote :: (raw ++ quote :: rest)) =
      behind (quote :: (raw ++ [quote])) (objectBody depth false rest) := by
  have opens : objectBody depth false (quote :: (raw ++ quote :: rest)) =
      behind [quote] (objectBody depth true (raw ++ quote :: rest)) := by
    simp [objectBody, behind]
  rw [opens, objectBody_raw h, ← behind_append]
  rfl

/-- A character that neither opens nor closes anything. -/
theorem inert_singleton {c : UInt8} (plain : c ≠ quote ∧ c ≠ 0x7B ∧ c ≠ 0x7D) : Inert [c] := by
  intro d mem
  obtain rfl := List.mem_singleton.mp mem
  exact plain

mutual

/-- A value is inside the object around it. -/
theorem Json.objectBody_render : (v : Json) → v.Loose → (depth : Nat) → 1 ≤ depth → (rest : Str) →
    objectBody depth false (v.render ++ rest) = behind v.render (objectBody depth false rest)
  | .str raw, h, depth, _, rest => by
    rw [Json.render, List.cons_append, List.append_assoc]
    exact objectBody_string h depth rest
  | .atom text, h, depth, _, rest => objectBody_inert h.1 depth rest
  | .arr front items, h, depth, inside, rest => by
    have open_ : Inert [(0x5B : UInt8)] := inert_singleton (by decide)
    have close : Inert [(0x5D : UInt8)] := inert_singleton (by decide)
    have shape : (Json.arr front items).render ++ rest = [0x5B] ++ (front ++ (items.render ++ ([0x5D] ++ rest))) := by
      simp [Json.render]
    rw [shape, objectBody_inert open_, objectBody_inert h.1, Items.objectBody_render items h.2 depth inside,
      objectBody_inert close, ← behind_append, ← behind_append, ← behind_append]
    simp [Json.render]
  | .obj front members, h, depth, inside, rest => by
    have shape : (Json.obj front members).render ++ rest =
        0x7B :: (front ++ (members.render ++ 0x7D :: rest)) := by
      simp [Json.render]
    have close : objectBody (depth + 1) false (0x7D :: rest) = behind [0x7D] (objectBody depth false rest) := by
      rw [objectBody, if_neg (by decide), if_neg (by decide), if_pos rfl, if_neg (by omega)]
      rfl
    rw [shape, objectBody, if_neg (by decide), if_pos rfl, objectBody_inert h.1,
      Members.objectBody_render members h.2 (depth + 1) (by omega), close, ← behind_append, ← behind_append]
    cases objectBody depth false rest with
    | none => rfl
    | some r => simp [behind, Json.render]

theorem Items.objectBody_render : (items : Items) → items.Loose → (depth : Nat) → 1 ≤ depth → (rest : Str) →
    objectBody depth false (items.render ++ rest) = behind items.render (objectBody depth false rest)
  | .nil, _, depth, _, rest => objectBody_inert (fun _ no => absurd no List.not_mem_nil) depth rest
  | .cons v gap more, h, depth, inside, rest => by
    rw [Items.render, List.append_assoc, List.append_assoc, Json.objectBody_render v h.1 depth inside,
      objectBody_inert h.2.1, Items.objectBody_render more h.2.2.2 depth inside, behind_append, behind_append]

theorem Members.objectBody_render : (members : Members) → members.Loose → (depth : Nat) → 1 ≤ depth →
    (rest : Str) →
    objectBody depth false (members.render ++ rest) = behind members.render (objectBody depth false rest)
  | .nil, _, depth, _, rest => objectBody_inert (fun _ no => absurd no List.not_mem_nil) depth rest
  | .cons key colon v gap more, h, depth, inside, rest => by
    have shape : (Members.cons key colon v gap more).render ++ rest =
        quote :: (key ++ quote :: (colon ++ (v.render ++ (gap ++ (more.render ++ rest))))) := by
      simp [Members.render]
    rw [shape, objectBody_string h.1, objectBody_inert h.2.1, Json.objectBody_render v h.2.2.1 depth inside,
      objectBody_inert h.2.2.2.1, Members.objectBody_render more h.2.2.2.2.2 depth inside, ← behind_append,
      ← behind_append, ← behind_append, ← behind_append]
    simp [Members.render]

end

/-- The end of a package object. -/
theorem objectBody_members {front : Str} {members : Members} (blank : Inert front) (h : members.Loose)
    (rest : Str) : objectBody 1 false (front ++ (members.render ++ 0x7D :: rest)) =
      some (front ++ members.render, rest) := by
  rw [objectBody_inert blank, Members.objectBody_render members h 1 le_rfl, ← behind_append, objectBody,
    if_neg (by decide), if_neg (by decide), if_pos rfl, if_pos le_rfl]
  simp [behind]

/-! ### The fields of an object -/

theorem stringBody_length {s body rest : Str} (h : stringBody s = some (body, rest)) :
    rest.length < s.length := by
  induction s using stringBody.induct generalizing body with
  | case1 => cases h
  | case2 =>
    rw [stringBody_quote] at h
    obtain ⟨_, rfl⟩ := Prod.mk.inj (Option.some.inj h)
    simp
  | case3 c ne =>
    simp [stringBody, ne] at h
  | case4 d s ih =>
    rw [stringBody, if_pos rfl] at h
    obtain ⟨r, hr, eq⟩ := Option.map_eq_some_iff.mp h
    obtain ⟨_, rfl⟩ := Prod.mk.inj eq
    have := ih hr
    simp only [List.length_cons]
    omega
  | case5 d s _ =>
    rw [stringBody_quote] at h
    obtain ⟨_, rfl⟩ := Prod.mk.inj (Option.some.inj h)
    simp
  | case6 c d s ne ne' ih =>
    rw [stringBody, if_neg ne, if_neg ne'] at h
    obtain ⟨r, hr, eq⟩ := Option.map_eq_some_iff.mp h
    obtain ⟨_, rfl⟩ := Prod.mk.inj eq
    have := ih hr
    simp only [List.length_cons] at this ⊢
    omega

theorem nextString_length {s body rest : Str} (h : nextString s = some (body, rest)) :
    rest.length < s.length := by
  have inside := stringBody_length h
  have := (List.dropWhile_sublist (l := s) (· ≠ quote)).length_le
  rw [List.length_drop] at inside
  omega

/-- Once there is enough fuel, more of it changes nothing. -/
theorem fieldsFrom_fuel {fuel fuel' : Nat} {q : Str} (r : Reading) (enough : q.length ≤ fuel)
    (enough' : q.length ≤ fuel') : fieldsFrom fuel r q = fieldsFrom fuel' r q := by
  induction fuel generalizing fuel' q r with
  | zero =>
    obtain rfl := List.length_eq_zero_iff.mp (Nat.le_zero.mp enough)
    cases fuel' with
    | zero => rfl
    | succ fuel' => rfl
  | succ fuel ih =>
    cases fuel' with
    | zero =>
      obtain rfl := List.length_eq_zero_iff.mp (Nat.le_zero.mp enough')
      rfl
    | succ fuel' =>
      rw [fieldsFrom, fieldsFrom]
      cases hk : nextString q with
      | none => rfl
      | some kr =>
        obtain ⟨key, rest⟩ := kr
        have shorter := nextString_length hk
        simp only
        split
        · exact ih _ (by omega) (by omega)
        · cases hv : nextString (rest.dropWhile fun c => c = 0x20 || c = 0x3A) with
          | none => rfl
          | some vr =>
            obtain ⟨val, rest'⟩ := vr
            have shorter' := nextString_length hv
            have := (List.dropWhile_sublist (l := rest) fun c => c = 0x20 || c = 0x3A).length_le
            exact ih _ (by omega) (by omega)

/-- The fields that are read from a place on. -/
def scan (r : Reading) (q : Str) : Reading := fieldsFrom q.length r q

theorem scan_eq (r : Reading) (q : Str) : scan r q = match nextString q with
    | none => r
    | some (key, q) =>
      if (q.dropWhile fun c => c = 0x20 || c = 0x3A).head? ≠ some quote then
        scan (if key = ascii "size" then
          ({ r.1 with size := sizeAt (q.dropWhile fun c => c = 0x20 || c = 0x3A) }, r.2) else r) q
      else match nextString (q.dropWhile fun c => c = 0x20 || c = 0x3A) with
        | none => r
        | some (val, q) => scan (if 24 ≤ key.length then r else setField r key val) q := by
  cases hq : q with
  | nil => rfl
  | cons c s =>
    rw [← hq, scan, show q.length = s.length + 1 by rw [hq]; rfl, fieldsFrom]
    cases hk : nextString q with
    | none => rfl
    | some kr =>
      obtain ⟨key, rest⟩ := kr
      have shorter := nextString_length hk
      have lengthQ : q.length = s.length + 1 := by rw [hq]; rfl
      simp only
      split
      · exact fieldsFrom_fuel _ (by omega) le_rfl
      · cases hv : nextString (rest.dropWhile fun c => c = 0x20 || c = 0x3A) with
        | none => rfl
        | some vr =>
          obtain ⟨val, rest'⟩ := vr
          have shorter' := nextString_length hv
          have := (List.dropWhile_sublist (l := rest) fun c => c = 0x20 || c = 0x3A).length_le
          exact fieldsFrom_fuel _ (by omega) le_rfl

/-- What stands in front of the next string is passed over. -/
theorem scan_skip {gap : Str} (plain : quote ∉ gap) (r : Reading) (s : Str) :
    scan r (gap ++ s) = scan r s := by
  rw [scan_eq, scan_eq r s, nextString_skip plain]

/-- What is behind a string is not taken for its value. -/
def Ends (s : Str) : Prop := (s.dropWhile fun c => c = 0x20 || c = 0x3A).head? ≠ some quote

/-- A gap in which only spaces stand around the colon. -/
def Spaces (colon : Str) : Prop := ∀ c ∈ colon, c = 0x20 ∨ c = 0x3A

instance (colon : Str) : Decidable (Spaces colon) := by unfold Spaces; infer_instance

theorem ends_of_head {c : UInt8} {s : Str} (h : c ≠ quote ∧ c ≠ 0x20 ∧ c ≠ 0x3A) : Ends (c :: s) := by
  rw [Ends, List.dropWhile_cons_of_neg (by simp [h.2.1, h.2.2])]
  simpa using h.1

theorem ends_gap {gap tail : Str} (plain : quote ∉ gap) (h : (∃ c ∈ gap, c ≠ 0x20 ∧ c ≠ 0x3A) ∨ Ends tail) :
    Ends (gap ++ tail) := by
  induction gap with
  | nil =>
    rcases h with ⟨c, mem, _⟩ | h
    · cases mem
    · exact h
  | cons c gap ih =>
    rw [List.mem_cons, not_or] at plain
    by_cases stop : c ≠ 0x20 ∧ c ≠ 0x3A
    · exact ends_of_head ⟨Ne.symm plain.1, stop⟩
    · have passed : (c = 0x20 || c = 0x3A) = true := by
        simp only [Bool.or_eq_true, decide_eq_true_eq]
        tauto
      rw [Ends, List.cons_append, List.dropWhile_cons_of_pos (p := fun c : UInt8 => c = 0x20 || c = 0x3A) passed]
      refine ih plain.2 ?_
      rcases h with ⟨d, mem, ne⟩ | h
      · rcases List.mem_cons.mp mem with rfl | mem
        · exact absurd ne stop
        · exact Or.inl ⟨d, mem, ne⟩
      · exact Or.inr h

theorem exists_of_not_spaces {colon : Str} (h : ¬Spaces colon) : ∃ c ∈ colon, c ≠ 0x20 ∧ c ≠ 0x3A := by
  simpa [Spaces] using h

/-- A string that is not in front of another one. -/
theorem scan_lone {raw : Str} (h : Raw raw) {rest : Str} (ends : Ends rest) (r : Reading) :
    scan r (quote :: (raw ++ quote :: rest)) = scan (if raw = ascii "size" then
      ({ r.1 with size := sizeAt (rest.dropWhile fun c => c = 0x20 || c = 0x3A) }, r.2) else r) rest := by
  rw [scan_eq, nextString_quote h]
  unfold Ends at ends
  simp only
  rw [if_pos ends]

/-- A key and its value. -/
theorem scan_pair {key colon raw : Str} (h : Raw key) (spaces : Spaces colon) (h' : Raw raw) (rest : Str)
    (r : Reading) : scan r (quote :: (key ++ quote :: (colon ++ quote :: (raw ++ quote :: rest)))) =
      scan (if 24 ≤ key.length then r else setField r key raw) rest := by
  have skip : (colon ++ quote :: (raw ++ quote :: rest)).dropWhile (fun c => c = 0x20 || c = 0x3A) =
      quote :: (raw ++ quote :: rest) := by
    rw [List.dropWhile_append_of_pos fun c mem => by simpa using spaces c mem,
      List.dropWhile_cons_of_neg (by decide)]
  rw [scan_eq, nextString_quote h]
  simp only [skip]
  rw [if_neg (by simp), nextString_quote h']

end RPCortex.Repo
