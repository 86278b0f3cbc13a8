import RPCortex.Repo.Rendering

/-! `repo_walk` reads the packages of an index from every rendering of it, as long as the members are clear. -/

namespace RPCortex.Repo

open Lib

/-! ### One member -/

theorem spells_self {s : Str} (plain : ∀ c ∈ s, c ≠ quote ∧ c ≠ backslash ∧ 0x20 ≤ c) : Spells s s := by
  induction s with
  | nil => exact .nil
  | cons c s ih => exact .char (plain c (by simp)) (ih fun d mem => plain d (by simp [mem]))

example : Field.ofKey (cstr (ascii "name")) = some .name := by decide +kernel

/-- A key of a field is plain, short and known. -/
theorem of_mem_keys {f : Field} {k : Str} (mem : k ∈ f.keys) :
    Spells k k ∧ k.length < 24 ∧ Field.ofKey (cstr k) = some f := by
  have all : ∀ f : Field, ∀ k ∈ f.keys, (∀ c ∈ k, c ≠ quote ∧ c ≠ backslash ∧ 0x20 ≤ c) ∧ k.length < 24 ∧
      Field.ofKey (cstr k) = some f := by
    intro f
    cases f <;> decide +kernel
  obtain ⟨plain, short, known⟩ := all f k mem
  exact ⟨spells_self plain, short, known⟩

theorem spells_size : Spells (ascii "size") (ascii "size") := spells_self (by decide +kernel)

/-- A string whose escapes are simple as far as it is copied. -/
theorem copyStr_eq {raw val : Str} (spells : Spells raw val) {cap : Nat}
    (simple : simpleEscapes (cap - 1) raw = true) (some_ : 0 < cap) (cut : Bool) :
    copyStr raw cap cut = if val.length < cap then some val
      else if cut then some (val.take (cap - 1)) else none := by
  obtain ⟨same, zero, short⟩ := spells.unescape simple
  have short' : (unescape raw).length < cap ↔ val.length < cap := by omega
  rw [copyStr, same, cstr_of_notMem zero]
  by_cases fit : val.length < cap
  · have whole : unescape raw = val := by
      rw [List.take_of_length_le (by omega), List.take_of_length_le (by omega)] at same
      exact same
    rw [List.take_of_length_le (by omega)] at zero
    rw [if_pos (short'.mpr fit), if_pos fit, whole, cstr_of_notMem zero]
  · rw [if_neg (mt short'.mp fit), if_neg fit]

/-- A text is put into its field as far as there is room. -/
theorem putField_eq {raw val : Str} (spells : Spells raw val) (r : Reading) (f : Field)
    (simple : simpleEscapes (f.room.1 - 1) raw = true) :
    putField r f raw = if fits f val then (f.set r.1 (cutText f val), r.2) else (r.1, true) := by
  have copied := copyStr_eq spells simple (by cases f <;> decide)
  unfold putField fits cutText
  by_cases cut : f.room.2 = true
  · simp only [cut, if_true, true_or, putCut, copied]
    by_cases short : val.length < f.room.1
    · rw [if_pos short, List.take_of_length_le (by omega)]
    · rw [if_neg short]
  · simp only [cut, Bool.false_eq_true, if_false, false_or, put, copied]
    by_cases short : val.length < f.room.1
    · rw [if_pos short, if_pos short]
    · rw [if_neg short, if_neg short]

theorem digits_of_isDigit {text : Str} (all : ∀ c ∈ text, isDigit c = true) :
    digits 10 text = text.map fun c => c.toNat - 0x30 := by
  induction text with
  | nil => rfl
  | cons c text ih =>
    have digit_ : digit 10 c = some (c.toNat - 0x30) := by
      have every : ∀ c, isDigit c = true → digit 10 c = some (c.toNat - 0x30) := by decide +kernel
      exact every c (all c (by simp))
    rw [digits, digit_, List.map_cons, ih fun d mem => all d (by simp [mem])]

/-- The number of the digits in front of a text, without its high part. -/
theorem sizeAt_eq (text : Str) : sizeAt text = ofDigits 10 (digits 10 (text.takeWhile isDigit)) % 2 ^ 32 := by
  have step (ds : List Nat) (v : Nat) : ds.foldl (fun v d => (v * 10 + d) % 2 ^ 32) (v % 2 ^ 32) =
      ds.foldl (fun v d => v * 10 + d) v % 2 ^ 32 := by
    induction ds generalizing v with
    | nil => rfl
    | cons d ds ih =>
      rw [List.foldl_cons, List.foldl_cons, ← ih]
      congr 1
      omega
  rw [sizeAt, digits_of_isDigit fun c mem => (List.mem_takeWhile_imp mem), ofDigits, ← step, List.foldl_map]
  rfl

variable {ms : List (Str × Str × Json)} {e : RepoEntry}

/-- A member of a package is one of its texts, its size, or nothing. -/
theorem readMember_cases (describes : Describes ms e) {m : Str × Str × Json} (mem : m ∈ ms) (clear : Clear m)
    (r : Reading) :
    (∃ f : Field, m.1 ∈ f.keys ∧ readMember r m = if fits f (f.get e) then
      (f.set r.1 (cutText f (f.get e)), r.2) else (r.1, true)) ∨
    (∀ f : Field, m.1 ∉ f.keys) ∧ m.1 = ascii "size" ∧
      readMember r m = ({ r.1 with size := e.size % 2 ^ 32 }, r.2) ∨
    (∀ f : Field, m.1 ∉ f.keys) ∧ m.1 ≠ ascii "size" ∧ readMember r m = r := by
  obtain ⟨key, colon, v⟩ := m
  have text {f : Field} (named : key ∈ f.keys) : ∃ raw, v = .str raw ∧ Spells raw (f.get e) :=
    describes.given _ mem f key named (of_mem_keys named).1
  have notText (h : v.isText = false) (f : Field) : key ∉ f.keys := by
    intro named
    obtain ⟨raw, rfl, _⟩ := text named
    cases h
  cases v with
  | str raw =>
    have notSize : key ≠ ascii "size" := by
      rintro rfl
      obtain ⟨_, no, _⟩ := describes.size _ mem spells_size
      cases no
    cases known : Field.ofKey (cstr key) with
    | some f =>
      simp only [Clear, known] at clear
      rcases clear with ⟨named, spaces, simple⟩ | ⟨other, spaces, _⟩
      · obtain ⟨raw', eq, spells⟩ := text named
        obtain rfl : raw = raw' := by simpa using eq
        refine Or.inl ⟨f, named, ?_⟩
        have short := (of_mem_keys named).2.1
        have read : ¬(24 ≤ key.length ∨ ¬Spaces colon) := not_or.mpr ⟨not_le.mpr short, not_not_intro spaces⟩
        simp only [readMember, if_neg read, setField_eq, known]
        exact putField_eq spells r f simple
      · have unnamed (g : Field) : key ∉ g.keys := by
          intro named
          rw [(of_mem_keys named).2.2] at known
          exact other (Option.some.inj known ▸ named)
        refine Or.inr (Or.inr ⟨unnamed, notSize, ?_⟩)
        simp only [readMember, spaces, not_false_iff, or_true, if_true]
    | none =>
      have unnamed : ∀ f : Field, key ∉ f.keys := by
        intro f named
        rw [(of_mem_keys named).2.2] at known
        cases known
      refine Or.inr (Or.inr ⟨unnamed, notSize, ?_⟩)
      simp only [readMember, setField_eq, known, ite_self]
  | atom t =>
    by_cases size : key = ascii "size"
    · refine Or.inr (Or.inl ⟨notText rfl, size, ?_⟩)
      have spells : Spells key (ascii "size") := by
        rw [size]
        exact spells_size
      obtain ⟨t', eq, number⟩ := describes.size _ mem spells
      obtain rfl : t = t' := by simpa using eq
      have value : e.size = ofDigits 10 (digits 10 (t.takeWhile isDigit)) := by
        exact_mod_cast (clear size).2 _ number
      simp only [readMember, if_pos size, sizeAt_eq, value]
    · refine Or.inr (Or.inr ⟨notText rfl, size, ?_⟩)
      simp only [readMember, if_neg size]
  | arr front items => exact Or.inr (Or.inr ⟨notText rfl, clear.1, rfl⟩)
  | obj front members => exact Or.inr (Or.inr ⟨notText rfl, clear.1, rfl⟩)

/-! ### All members -/

section Members

variable (describes : Describes ms e) {l : List (Str × Str × Json)} (sub : ∀ m ∈ l, m ∈ ms)
  (clear : ∀ m ∈ l, Clear m)

include describes sub clear

/-- A text that has room is read from its member. -/
theorem foldl_text {f : Field} (room : fits f (f.get e)) (r : Reading) :
    f.get (l.foldl readMember r).1 =
      if ∃ m ∈ l, m.1 ∈ f.keys then cutText f (f.get e) else f.get r.1 := by
  induction l generalizing r with
  | nil => simp
  | cons m l ih =>
    rw [List.foldl_cons, ih (fun m h => sub m (by simp [h])) fun m h => clear m (by simp [h])]
    by_cases later : ∃ m ∈ l, m.1 ∈ f.keys
    · obtain ⟨m', mem, named⟩ := later
      rw [if_pos ⟨m', mem, named⟩, if_pos ⟨m', by simp [mem], named⟩]
    · rw [if_neg later]
      have none_ (h : m.1 ∉ f.keys) : ¬∃ m' ∈ m :: l, m'.1 ∈ f.keys := by
        rintro ⟨m', mem, named'⟩
        rcases List.mem_cons.mp mem with rfl | mem
        · exact h named'
        · exact later ⟨m', mem, named'⟩
      rcases readMember_cases describes (sub m (by simp)) (clear m (by simp)) r with
        ⟨g, named, eq⟩ | ⟨unnamed, _, eq⟩ | ⟨unnamed, _, eq⟩
      · rw [eq]
        by_cases same : f = g
        · subst same
          rw [if_pos room, if_pos ⟨m, by simp, named⟩, Field.get_set, if_pos rfl]
        · have other : m.1 ∉ f.keys := by
            intro named'
            have := (of_mem_keys named).2.2
            rw [(of_mem_keys named').2.2] at this
            exact same (Option.some.inj this)
          rw [if_neg (none_ other)]
          split
          · rw [Field.get_set, if_neg same]
          · rfl
      · rw [eq, if_neg (none_ (unnamed f)), Field.get_size]
      · rw [eq, if_neg (none_ (unnamed f))]

/-- So is the size. -/
theorem foldl_size (r : Reading) : (l.foldl readMember r).1.size =
    if ∃ m ∈ l, m.1 = ascii "size" then e.size % 2 ^ 32 else r.1.size := by
  induction l generalizing r with
  | nil => simp
  | cons m l ih =>
    rw [List.foldl_cons, ih (fun m h => sub m (by simp [h])) fun m h => clear m (by simp [h])]
    by_cases later : ∃ m ∈ l, m.1 = ascii "size"
    · obtain ⟨m', mem, named⟩ := later
      rw [if_pos ⟨m', mem, named⟩, if_pos ⟨m', by simp [mem], named⟩]
    · rw [if_neg later]
      have none_ (h : m.1 ≠ ascii "size") : ¬∃ m' ∈ m :: l, m'.1 = ascii "size" := by
        rintro ⟨m', mem, named'⟩
        rcases List.mem_cons.mp mem with rfl | mem
        · exact h named'
        · exact later ⟨m', mem, named'⟩
      rcases readMember_cases describes (sub m (by simp)) (clear m (by simp)) r with
        ⟨g, named, eq⟩ | ⟨_, size, eq⟩ | ⟨_, size, eq⟩
      · have notSize : m.1 ≠ ascii "size" := by
          intro size
          have := (of_mem_keys named).2.2
          rw [size, show Field.ofKey (cstr (ascii "size")) = none by decide +kernel] at this
          cases this
        rw [eq, if_neg (none_ notSize)]
        split
        · rw [Field.size_set]
        · rfl
      · rw [eq, if_pos ⟨m, by simp, size⟩]
      · rw [eq, if_neg (none_ size)]

/-- A text without room makes the entry bad. -/
theorem foldl_bad (r : Reading) : (l.foldl readMember r).2 = true ↔
    r.2 = true ∨ ∃ m ∈ l, ∃ f : Field, m.1 ∈ f.keys ∧ ¬fits f (f.get e) := by
  induction l generalizing r with
  | nil => simp
  | cons m l ih =>
    rw [List.foldl_cons, ih (fun m h => sub m (by simp [h])) fun m h => clear m (by simp [h])]
    have one : (readMember r m).2 = true ↔ r.2 = true ∨ ∃ f : Field, m.1 ∈ f.keys ∧ ¬fits f (f.get e) := by
      rcases readMember_cases describes (sub m (by simp)) (clear m (by simp)) r with
        ⟨g, named, eq⟩ | ⟨unnamed, _, eq⟩ | ⟨unnamed, _, eq⟩
      · rw [eq]
        by_cases room : fits g (g.get e)
        · rw [if_pos room]
          refine ⟨Or.inl, fun h => h.resolve_right ?_⟩
          rintro ⟨f, named', no⟩
          have := (of_mem_keys named).2.2
          rw [(of_mem_keys named').2.2] at this
          obtain rfl := Option.some.inj this
          exact no room
        · rw [if_neg room]
          exact ⟨fun _ => Or.inr ⟨g, named, room⟩, fun _ => rfl⟩
      · rw [eq]
        exact ⟨Or.inl, fun h => h.resolve_right fun ⟨f, named, _⟩ => unnamed f named⟩
      · rw [eq]
        exact ⟨Or.inl, fun h => h.resolve_right fun ⟨f, named, _⟩ => unnamed f named⟩
    rw [one, or_assoc]
    refine or_congr_right ⟨?_, ?_⟩
    · rintro (⟨f, h⟩ | ⟨m', mem, h⟩)
      · exact ⟨m, by simp, f, h⟩
      · exact ⟨m', by simp [mem], h⟩
    · rintro ⟨m', mem, h⟩
      rcases List.mem_cons.mp mem with rfl | mem
      · exact Or.inl h
      · exact Or.inr ⟨m', mem, h⟩

end Members

theorem cutText_nil (f : Field) : cutText f [] = [] := by
  unfold cutText
  split
  · exact List.take_nil
  · rfl

/-- The entry of a package. -/
theorem entry_described (describes : Describes ms e) (clear : ∀ m ∈ ms, Clear m)
    (plain : ∀ m ∈ ms, Unambiguous m) :
    let r := ms.foldl readMember (.blank, false)
    (if !r.2 && r.1.name ≠ [] && r.1.url ≠ [] then some r.1 else none) = reported e := by
  intro r
  have text {f : Field} (room : fits f (f.get e)) : f.get r.1 = cutText f (f.get e) := by
    have := foldl_text describes (fun _ h => h) clear room (.blank, false)
    rw [this]
    split
    · rfl
    · rename_i no
      have empty : f.get e = [] := describes.missing f fun m mem k key spells =>
        no ⟨m, mem, (plain m mem).1 f k key spells ▸ key⟩
      rw [empty, cutText_nil]
      cases f <;> rfl
  have size : r.1.size = e.size % 2 ^ 32 := by
    have := foldl_size describes (fun _ h => h) clear (.blank, false)
    rw [this]
    split
    · rfl
    · rename_i no
      rw [describes.noSize fun m mem spells => no ⟨m, mem, (plain m mem).2 spells⟩]
      rfl
  have bad : r.2 = true ↔ ∃ f : Field, ¬fits f (f.get e) := by
    have := foldl_bad describes (fun _ h => h) clear (.blank, false)
    rw [this, or_iff_right (by decide)]
    constructor
    · rintro ⟨m, _, f, _, no⟩
      exact ⟨f, no⟩
    · rintro ⟨f, no⟩
      by_contra none_
      have empty : f.get e = [] := describes.missing f fun m mem k key spells =>
        none_ ⟨m, mem, f, (plain m mem).1 f k key spells ▸ key, no⟩
      rw [empty] at no
      revert no
      cases f <;> decide
  by_cases room : ∀ f : Field, fits f (f.get e)
  · have good : r.2 = false := by
      rw [← Bool.not_eq_true, bad]
      exact fun ⟨f, no⟩ => no (room f)
    have name : r.1.name = e.name := text (room .name)
    have url : r.1.url = e.url := text (room .url)
    have whole : r.1 = { e with
        desc := cutText .desc e.desc
        abi := cutText .abi e.abi
        kind := cutText .kind e.kind
        arch := cutText .arch e.arch
        size := e.size % 2 ^ 32 } := by
      refine Field.ext (fun f => ?_) size
      rw [text (room f)]
      cases f <;> rfl
    rw [good, name, url, reported, whole]
    have five : fits .name e.name ∧ fits .ver e.ver ∧ fits .author e.author ∧ fits .url e.url ∧
        fits .sha256 e.sha256 := ⟨room .name, room .ver, room .author, room .url, room .sha256⟩
    by_cases both : e.name ≠ [] ∧ e.url ≠ []
    · rw [if_pos (by simp [both.1, both.2]), if_pos ⟨both.1, both.2, five⟩]
    · rw [if_neg, if_neg fun h => both ⟨h.1, h.2.1⟩]
      simpa using both
  · obtain ⟨f, no⟩ := not_forall.mp room
    rw [bad.mpr ⟨f, no⟩, reported, if_neg (by simp), if_neg]
    rintro ⟨_, _, name, ver, author, url, sha256⟩
    cases f with
    | name => exact no name
    | ver => exact no ver
    | author => exact no author
    | url => exact no url
    | sha256 => exact no sha256
    | desc => exact no (Or.inl rfl)
    | abi => exact no (Or.inl rfl)
    | kind => exact no (Or.inl rfl)
    | arch => exact no (Or.inl rfl)

end RPCortex.Repo
