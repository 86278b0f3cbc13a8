import RPCortex.Repo.Scan

/-! The index of some packages, rendered as JSON, and what `repo_walk` reads of it. -/

namespace RPCortex.Repo

open Lib

/-! ### Fields -/

/-- The texts of an entry. -/
inductive Field
  | name | ver | desc | author | url | sha256 | abi | kind | arch
  deriving DecidableEq

namespace Field

/-- The field that a key names in `repo_walk`. -/
def ofKey (key : Str) : Option Field :=
  if ieq key (ascii "name") then some name
  else if ieq key (ascii "ver") then some ver
  else if ieq key (ascii "version") then some ver
  else if ieq key (ascii "desc") then some desc
  else if ieq key (ascii "author") then some author
  else if ieq key (ascii "url") then some url
  else if ieq key (ascii "sha256") then some sha256
  else if ieq key (ascii "abi") then some abi
  else if ieq key (ascii "kind") then some kind
  else if ieq key (ascii "arch") then some arch
  else none

/-- The keys of a field in an index. -/
def keys : Field → List Str
  | name => [ascii "name"]
  | ver => [ascii "ver", ascii "version"]
  | desc => [ascii "desc"]
  | author => [ascii "author"]
  | url => [ascii "url"]
  | sha256 => [ascii "sha256"]
  | abi => [ascii "abi"]
  | kind => [ascii "kind"]
  | arch => [ascii "arch"]

/-- The bytes that a field has room for, with the NUL, and whether a text that is too long is cut. -/
def room : Field → Nat × Bool
  | name => (repoNameMax, false)
  | ver => (repoVerMax, false)
  | desc => (repoDescMax, true)
  | author => (repoNameMax, false)
  | url => (repoUrlMax, false)
  | sha256 => (repoHashMax, false)
  | abi => (8, true)
  | kind => (10, true)
  | arch => (12, true)

def get (e : RepoEntry) : Field → Str
  | name => e.name
  | ver => e.ver
  | desc => e.desc
  | author => e.author
  | url => e.url
  | sha256 => e.sha256
  | abi => e.abi
  | kind => e.kind
  | arch => e.arch

def set (e : RepoEntry) (s : Str) : Field → RepoEntry
  | name => { e with name := s }
  | ver => { e with ver := s }
  | desc => { e with desc := s }
  | author => { e with author := s }
  | url => { e with url := s }
  | sha256 => { e with sha256 := s }
  | abi => { e with abi := s }
  | kind => { e with kind := s }
  | arch => { e with arch := s }

theorem get_set (e : RepoEntry) (s : Str) (f g : Field) :
    get (set e s f) g = if g = f then s else get e g := by
  cases f <;> cases g <;> rfl

theorem size_set (e : RepoEntry) (s : Str) (f : Field) : (set e s f).size = e.size := by cases f <;> rfl

theorem get_size (e : RepoEntry) (n : Nat) (f : Field) : get { e with size := n } f = get e f := by
  cases f <;> rfl

theorem ext {e e' : RepoEntry} (texts : ∀ f, get e f = get e' f) (size : e.size = e'.size) : e = e' := by
  have name := texts .name
  have ver := texts .ver
  have desc := texts .desc
  have author := texts .author
  have url := texts .url
  have sha256 := texts .sha256
  have abi := texts .abi
  have arch := texts .arch
  have kind := texts .kind
  cases e
  cases e'
  simp only [get] at *
  simp [*]

end Field

/-- What `repo_walk` does with a text for a field. -/
def putField (r : Reading) (f : Field) (val : Str) : Reading :=
  if f.room.2 then putCut r val f.room.1 fun e s => f.set e s else put r val f.room.1 fun e s => f.set e s

theorem setField_eq (r : Reading) (key val : Str) :
    setField r key val = match Field.ofKey (cstr key) with
      | some f => putField r f val
      | none => r := by
  unfold setField Field.ofKey
  simp only
  by_cases name : ieq (cstr key) (ascii "name") = true
  · rw [if_pos name, if_pos name]
    rfl
  rw [if_neg name, if_neg name]
  by_cases ver : ieq (cstr key) (ascii "ver") = true
  · rw [if_pos ver, if_pos ver]
    rfl
  rw [if_neg ver, if_neg ver]
  by_cases version : ieq (cstr key) (ascii "version") = true
  · rw [if_pos version, if_pos version]
    rfl
  rw [if_neg version, if_neg version]
  by_cases desc : ieq (cstr key) (ascii "desc") = true
  · rw [if_pos desc, if_pos desc]
    rfl
  rw [if_neg desc, if_neg desc]
  by_cases author : ieq (cstr key) (ascii "author") = true
  · rw [if_pos author, if_pos author]
    rfl
  rw [if_neg author, if_neg author]
  by_cases url : ieq (cstr key) (ascii "url") = true
  · rw [if_pos url, if_pos url]
    rfl
  rw [if_neg url, if_neg url]
  by_cases sha256 : ieq (cstr key) (ascii "sha256") = true
  · rw [if_pos sha256, if_pos sha256]
    rfl
  rw [if_neg sha256, if_neg sha256]
  by_cases abi : ieq (cstr key) (ascii "abi") = true
  · rw [if_pos abi, if_pos abi]
    rfl
  rw [if_neg abi, if_neg abi]
  by_cases kind : ieq (cstr key) (ascii "kind") = true
  · rw [if_pos kind, if_pos kind]
    rfl
  rw [if_neg kind, if_neg kind]
  by_cases arch : ieq (cstr key) (ascii "arch") = true
  · rw [if_pos arch, if_pos arch]
    rfl
  rw [if_neg arch, if_neg arch]

/-! ### Values that are passed over -/

def Json.isText : Json → Bool
  | .str _ => true
  | _ => false

mutual

/-- No text in a value looks like a member that `repo_walk` knows. -/
def Json.Quiet : Json → Prop
  | .str raw => raw ≠ ascii "size"
  | .atom _ => True
  | .arr _ items => items.Quiet
  | .obj _ members => members.Quiet

def Items.Quiet : Items → Prop
  | .nil => True
  | .cons v _ rest => v.Quiet ∧ rest.Quiet

def Members.Quiet : Members → Prop
  | .nil => True
  | .cons key colon v _ rest =>
    (if v.isText = true ∧ Spaces colon then Field.ofKey (cstr key) = none else key ≠ ascii "size" ∧ v.Quiet) ∧
      rest.Quiet

end

theorem Json.Loose.ends : {v : Json} → v.Loose → v.isText = false → (rest : Str) → Ends (v.render ++ rest)
  | .atom [], h, _, _ => absurd rfl h.2.1
  | .atom (c :: _), h, _, _ => ends_of_head ⟨(h.1 c (by simp)).1, h.2.2 c (by simp)⟩
  | .arr _ _, _, _, _ => ends_of_head (by decide)
  | .obj _ _, _, _, _ => ends_of_head (by decide)

/-- A key that is not taken for the key of the next string. -/
theorem scan_key {key colon : Str} {v : Json} (h : Raw key) (blank : Inert colon) (loose : v.Loose)
    (apart : ¬(v.isText = true ∧ Spaces colon)) (rest : Str) (r : Reading) :
    scan r (quote :: (key ++ quote :: (colon ++ (v.render ++ rest)))) =
      scan (if key = ascii "size" then
        ({ r.1 with size := sizeAt ((colon ++ (v.render ++ rest)).dropWhile fun c => c = 0x20 || c = 0x3A) }, r.2)
        else r) (v.render ++ rest) := by
  have ends : Ends (colon ++ (v.render ++ rest)) := by
    refine ends_gap blank.noQuote ?_
    cases text : v.isText with
    | false => exact Or.inr (loose.ends text rest)
    | true => exact Or.inl (exists_of_not_spaces fun spaces => apart ⟨text, spaces⟩)
  rw [scan_lone h ends, scan_skip blank.noQuote]

/-- The gap behind a value. -/
theorem ends_behind {gap tail : Str} (blank : Inert gap) (h : comma ∈ gap ∨ Ends tail) : Ends (gap ++ tail) := by
  refine ends_gap blank.noQuote ?_
  rcases h with h | h
  · exact Or.inl ⟨comma, h, by decide⟩
  · exact Or.inr h

mutual

theorem Json.scan_quiet : (v : Json) → v.Loose → v.Quiet → (rest : Str) → Ends rest → (r : Reading) →
    scan r (v.render ++ rest) = scan r rest
  | .str raw, loose, quiet, rest, ends, r => by
    have shape : (Json.str raw).render ++ rest = quote :: (raw ++ quote :: rest) := by simp [Json.render]
    rw [shape, scan_lone loose ends, if_neg quiet]
  | .atom text, loose, _, rest, _, r => scan_skip loose.1.noQuote r rest
  | .arr front items, loose, quiet, rest, ends, r => by
    have shape : (Json.arr front items).render ++ rest =
        (0x5B :: front) ++ (items.render ++ ([0x5D] ++ rest)) := by simp [Json.render]
    have open_ : quote ∉ (0x5B : UInt8) :: front := by
      rw [List.mem_cons, not_or]
      exact ⟨by decide, loose.1.noQuote⟩
    rw [shape, scan_skip open_, Items.scan_quiet items loose.2 quiet ([0x5D] ++ rest) (ends_of_head (by decide)),
      scan_skip (by decide)]
  | .obj front members, loose, quiet, rest, ends, r => by
    have shape : (Json.obj front members).render ++ rest =
        (0x7B :: front) ++ (members.render ++ ([0x7D] ++ rest)) := by simp [Json.render]
    have open_ : quote ∉ (0x7B : UInt8) :: front := by
      rw [List.mem_cons, not_or]
      exact ⟨by decide, loose.1.noQuote⟩
    rw [shape, scan_skip open_, Members.scan_quiet members loose.2 quiet ([0x7D] ++ rest) (ends_of_head (by decide)),
      scan_skip (by decide)]

theorem Items.scan_quiet : (items : Items) → items.Loose → items.Quiet → (rest : Str) → Ends rest →
    (r : Reading) → scan r (items.render ++ rest) = scan r rest
  | .nil, _, _, _, _, _ => rfl
  | .cons v gap more, loose, quiet, rest, ends, r => by
    have shape : (Items.cons v gap more).render ++ rest = v.render ++ (gap ++ (more.render ++ rest)) := by
      simp [Items.render]
    have last : comma ∈ gap ∨ Ends (more.render ++ rest) := by
      rcases loose.2.2.1 with h | rfl
      · exact Or.inl h
      · exact Or.inr ends
    rw [shape, Json.scan_quiet v loose.1 quiet.1 _ (ends_behind loose.2.1 last), scan_skip loose.2.1.noQuote,
      Items.scan_quiet more loose.2.2.2 quiet.2 rest ends]

theorem Members.scan_quiet : (members : Members) → members.Loose → members.Quiet → (rest : Str) → Ends rest →
    (r : Reading) → scan r (members.render ++ rest) = scan r rest
  | .nil, _, _, _, _, _ => rfl
  | .cons key colon v gap more, loose, quiet, rest, ends, r => by
    obtain ⟨rawKey, blankColon, looseV, blankGap, sep, looseMore⟩ := loose
    have shape : (Members.cons key colon v gap more).render ++ rest =
        quote :: (key ++ quote :: (colon ++ (v.render ++ (gap ++ (more.render ++ rest))))) := by
      simp [Members.render]
    have last : comma ∈ gap ∨ Ends (more.render ++ rest) := by
      rcases sep with h | rfl
      · exact Or.inl h
      · exact Or.inr ends
    have behind_ := scan_skip blankGap.noQuote r (more.render ++ rest)
    have tail := Members.scan_quiet more looseMore quiet.2 rest ends r
    have first := quiet.1
    by_cases pair : v.isText = true ∧ Spaces colon
    · rw [if_pos pair] at first
      cases v with
      | str raw =>
        have shape' : (Json.str raw).render ++ (gap ++ (more.render ++ rest)) =
            quote :: (raw ++ quote :: (gap ++ (more.render ++ rest))) := by simp [Json.render]
        rw [shape, shape', scan_pair rawKey pair.2 looseV, setField_eq, first]
        simp only [ite_self]
        rw [behind_, tail]
      | atom text => cases pair.1
      | arr front items => cases pair.1
      | obj front members => cases pair.1
    · rw [if_neg pair] at first
      rw [shape, scan_key rawKey blankColon looseV pair, if_neg first.1,
        Json.scan_quiet v looseV first.2 _ (ends_behind blankGap last), behind_, tail]

end

/-! ### The members of a package -/

/-- The members one by one. -/
def Members.toList : Members → List (Str × Str × Json)
  | .nil => []
  | .cons key colon v _ rest => (key, colon, v) :: rest.toList

/-- What `repo_walk` makes of a member. -/
def readMember (r : Reading) (m : Str × Str × Json) : Reading :=
  match m.2.2 with
  | .str raw => if 24 ≤ m.1.length ∨ ¬Spaces m.2.1 then r else setField r m.1 raw
  | .atom text => if m.1 = ascii "size" then ({ r.1 with size := sizeAt text }, r.2) else r
  | _ => r

/-- A member that `repo_walk` reads as JSON does.  The value of a field stands behind its plain key, with
only spaces around the colon, and has none of the escapes `\b`, `\f` and `\u` where it is copied; the digits in
front of the size are all of it; no other key is taken for that of a field; and what else stands there is quiet. -/
def Clear (m : Str × Str × Json) : Prop :=
  match m.2.2 with
  | .str raw =>
    match Field.ofKey (cstr m.1) with
    | some f =>
      m.1 ∈ f.keys ∧ Spaces m.2.1 ∧ simpleEscapes (f.room.1 - 1) raw = true ∨
        m.1 ∉ f.keys ∧ ¬Spaces m.2.1 ∧ raw ≠ ascii "size"
    | none => Spaces m.2.1 ∨ m.1 ≠ ascii "size" ∧ raw ≠ ascii "size"
  | .atom text => m.1 = ascii "size" →
    Spaces m.2.1 ∧ ∀ n, Number text n → n = ofDigits 10 (digits 10 (text.takeWhile isDigit))
  | v => m.1 ≠ ascii "size" ∧ v.Quiet

/-- No key is a field's in another spelling. -/
def Unambiguous (m : Str × Str × Json) : Prop :=
  (∀ f : Field, ∀ k ∈ f.keys, Spells m.1 k → m.1 = k) ∧ (Spells m.1 (ascii "size") → m.1 = ascii "size")

theorem sizeAt_append {text rest : Str} (stop : ∀ c ∈ rest.head?, isDigit c = false) :
    sizeAt (text ++ rest) = sizeAt text := by
  have none_ : rest.takeWhile isDigit = [] := by
    cases rest with
    | nil => rfl
    | cons c rest => exact List.takeWhile_cons_of_neg (by simp [stop c rfl])
  rw [sizeAt, sizeAt, List.takeWhile_append, none_, List.append_nil]
  split
  · rename_i whole
    rw [((List.takeWhile_prefix isDigit).eq_of_length whole)]
  · rfl

/-- The gaps have no digits, and only the last one can be empty. -/
def Members.Gapped : Members → Prop
  | .nil => True
  | .cons _ _ _ gap rest => (∀ c ∈ gap, isDigit c = false) ∧ (rest = .nil ∨ gap ≠ []) ∧ rest.Gapped

theorem Ws.noDigit {s : Str} (h : Ws s) : ∀ c ∈ s, isDigit c = false := by
  intro c mem
  rcases h c mem with rfl | rfl | rfl | rfl
  · decide
  · decide
  · decide
  · decide

theorem Separated.noDigit {gap : Str} (h : Separated comma gap) : ∀ c ∈ gap, isDigit c = false := by
  obtain ⟨a, b, ha, hb, rfl⟩ := h
  intro c mem
  rcases List.mem_append.mp mem with mem | mem
  · exact ha.noDigit c mem
  · rcases List.mem_cons.mp mem with rfl | mem
    · decide
    · exact hb.noDigit c mem

theorem Members.Valid.gapped : (members : Members) → members.Valid → members.Gapped
  | .nil, _ => trivial
  | .cons _ _ _ _ .nil, valid => ⟨valid.2.2.2.noDigit, Or.inl rfl, trivial⟩
  | .cons _ _ _ _ (.cons k c v g rest), valid =>
    ⟨valid.2.2.2.1.noDigit, Or.inr (List.ne_nil_of_mem valid.2.2.2.1.mem),
      Members.Valid.gapped (.cons k c v g rest) valid.2.2.2.2⟩

/-- An object of clear members is read member by member. -/
theorem scan_members : (members : Members) → members.Loose → members.Gapped →
    (∀ m ∈ members.toList, Clear m) → (r : Reading) →
    scan r members.render = members.toList.foldl readMember r
  | .nil, _, _, _, _ => rfl
  | .cons key colon v gap more, loose, gapped, clear, r => by
    obtain ⟨rawKey, blankColon, looseV, blankGap, sep, looseMore⟩ := loose
    have first := clear (key, colon, v) (by simp [Members.toList])
    have tail (r : Reading) := scan_members more looseMore gapped.2.2
      (fun m mem => clear m (by simp [Members.toList, mem])) r
    have last : comma ∈ gap ∨ Ends more.render := by
      rcases sep with h | rfl
      · exact Or.inl h
      · exact Or.inr (by simp [Ends, Members.render])
    have ends := ends_behind blankGap last
    have goal : scan r (Members.cons key colon v gap more).render =
        scan (readMember r (key, colon, v)) (gap ++ more.render) := by
      rw [Members.render]
      cases v with
      | str raw =>
        have shape : (Json.str raw).render ++ (gap ++ more.render) =
            quote :: (raw ++ quote :: (gap ++ more.render)) := by simp [Json.render]
        by_cases spaces : Spaces colon
        · rw [shape, scan_pair rawKey spaces looseV]
          simp only [readMember, spaces, not_true, or_false]
        · have lone (keyNe : key ≠ ascii "size") (rawNe : raw ≠ ascii "size") :
              scan r (quote :: (key ++ quote :: (colon ++ ((Json.str raw).render ++ (gap ++ more.render))))) =
                scan (readMember r (key, colon, .str raw)) (gap ++ more.render) := by
            rw [scan_key rawKey blankColon looseV (fun h => spaces h.2), if_neg keyNe,
              Json.scan_quiet _ looseV rawNe _ ends]
            simp only [readMember, spaces, not_false_iff, or_true, if_true]
          simp only [Clear] at first
          cases known : Field.ofKey (cstr key) with
          | some f =>
            rw [known] at first
            obtain ⟨named, spaces', _⟩ | ⟨other, _, rawNe⟩ := first
            · exact absurd spaces' spaces
            have keyNe : key ≠ ascii "size" := by
              rintro rfl
              rw [show Field.ofKey (cstr (ascii "size")) = none by decide +kernel] at known
              cases known
            rw [lone keyNe rawNe]
          | none =>
            rw [known] at first
            obtain ⟨keyNe, rawNe⟩ := first.resolve_left spaces
            rw [lone keyNe rawNe]
      | atom text =>
        rw [scan_key rawKey blankColon looseV (fun h => Bool.false_ne_true h.1), Json.render, scan_skip looseV.1.noQuote]
        simp only [readMember]
        by_cases size : key = ascii "size"
        · obtain ⟨spaces, _⟩ := first size
          have skip : (colon ++ (text ++ (gap ++ more.render))).dropWhile (fun c => c = 0x20 || c = 0x3A) =
              text ++ (gap ++ more.render) := by
            rw [List.dropWhile_append_of_pos fun c mem => by simpa using spaces c mem]
            cases text with
            | nil => exact absurd rfl looseV.2.1
            | cons c text =>
              have := looseV.2.2 c (by simp)
              rw [List.cons_append, List.dropWhile_cons_of_neg (by simp [this.1, this.2])]
          have stop : ∀ c ∈ (gap ++ more.render).head?, isDigit c = false := by
            intro c mem
            cases gap with
            | nil =>
              rw [gapped.2.1.resolve_right (by simp)] at mem
              cases mem
            | cons d gap =>
              obtain rfl : d = c := by simpa using mem
              exact gapped.1 d (by simp)
          rw [if_pos size, if_pos size, skip, sizeAt_append stop]
        · rw [if_neg size, if_neg size]
      | arr front items =>
        rw [scan_key rawKey blankColon looseV (fun h => Bool.false_ne_true h.1), if_neg first.1,
          Json.scan_quiet _ looseV first.2 _ ends]
        rfl
      | obj front members =>
        rw [scan_key rawKey blankColon looseV (fun h => Bool.false_ne_true h.1), if_neg first.1,
          Json.scan_quiet _ looseV first.2 _ ends]
        rfl
    rw [goal, scan_skip blankGap.noQuote, tail]
    rfl

/-! ### The entry of a package -/

/-- A text of a package, cut where `repo_walk` cuts it. -/
def cutText (f : Field) (s : Str) : Str := if f.room.2 then s.take (f.room.1 - 1) else s

/-- Whether a text has room. -/
def fits (f : Field) (s : Str) : Prop := f.room.2 = true ∨ s.length < f.room.1

instance (f : Field) (s : Str) : Decidable (fits f s) := by unfold fits; infer_instance

/-- The entry that `repo_walk` has for a package: none when it has no name or URL, or when a text that is not
cut is too long. -/
def reported (e : RepoEntry) : Option RepoEntry :=
  if e.name ≠ [] ∧ e.url ≠ [] ∧ fits .name e.name ∧ fits .ver e.ver ∧ fits .author e.author ∧ fits .url e.url ∧
      fits .sha256 e.sha256 then
    some { e with
      desc := cutText .desc e.desc
      abi := cutText .abi e.abi
      kind := cutText .kind e.kind
      arch := cutText .arch e.arch
      size := e.size % 2 ^ 32 }
  else none

/-- The members of an object say what a package is: each of its texts and its size, where there is a member
for it, and otherwise they are empty. -/
structure Describes (ms : List (Str × Str × Json)) (e : RepoEntry) : Prop where
  given : ∀ m ∈ ms, ∀ f : Field, ∀ k ∈ f.keys, Spells m.1 k → ∃ raw, m.2.2 = .str raw ∧ Spells raw (f.get e)
  missing : ∀ f : Field, (∀ m ∈ ms, ∀ k ∈ f.keys, ¬Spells m.1 k) → f.get e = []
  size : ∀ m ∈ ms, Spells m.1 (ascii "size") → ∃ text, m.2.2 = .atom text ∧ Number text e.size
  noSize : (∀ m ∈ ms, ¬Spells m.1 (ascii "size")) → e.size = 0

end RPCortex.Repo
