import RPCortex.Repo.Sources

/-! JSON texts with their layout: strings as they are written, values with the white space between their
tokens, and what the two scanners of `repo_walk` make of them. -/

namespace RPCortex.Repo

open Lib

/-! ### Strings -/

/-- The escape sequences of two characters. -/
def escaped (d : UInt8) : Option UInt8 :=
  if d = quote ∨ d = backslash ∨ d = 0x2F then some d
  else if d = 0x62 then some 0x08
  else if d = 0x66 then some 0x0C
  else if d = 0x6E then some 0x0A
  else if d = 0x72 then some 0x0D
  else if d = 0x74 then some 0x09
  else none

/-- The number of four hexadecimal digits. -/
def codeUnit (ds : Str) : Option Nat :=
  if ds.length = 4 ∧ (digits 16 ds).length = 4 then some (ofDigits 16 (digits 16 ds)) else none

/-- What stands between the quotes of a JSON string, and the bytes that it means. -/
inductive Spells : Str → Str → Prop
  | nil : Spells [] []
  | char {c : UInt8} {raw value : Str} (plain : c ≠ quote ∧ c ≠ backslash ∧ 0x20 ≤ c)
      (rest : Spells raw value) : Spells (c :: raw) (c :: value)
  | escape {d e : UInt8} {raw value : Str} (means : escaped d = some e) (rest : Spells raw value) :
      Spells (backslash :: d :: raw) (e :: value)
  | unicode {ds raw value : Str} {n : Nat} (unit : codeUnit ds = some n) (scalar : n.isValidChar)
      (rest : Spells raw value) :
      Spells (backslash :: 0x75 :: (ds ++ raw)) (String.utf8EncodeChar (Char.ofNat n) ++ value)
  | pair {ds ds' raw value : Str} {n m : Nat} (high : codeUnit ds = some n) (low : codeUnit ds' = some m)
      (range : 0xD800 ≤ n ∧ n < 0xDC00 ∧ 0xDC00 ≤ m ∧ m < 0xE000) (rest : Spells raw value) :
      Spells (backslash :: 0x75 :: (ds ++ backslash :: 0x75 :: (ds' ++ raw)))
        (String.utf8EncodeChar (Char.ofNat (0x10000 + (n - 0xD800) * 0x400 + (m - 0xDC00))) ++ value)

/-- A text in which every quote stands behind a backslash. -/
inductive Raw : Str → Prop
  | nil : Raw []
  | char {c : UInt8} {raw : Str} (plain : c ≠ quote ∧ c ≠ backslash) (rest : Raw raw) : Raw (c :: raw)
  | escape {d : UInt8} {raw : Str} (rest : Raw raw) : Raw (backslash :: d :: raw)

theorem digits_cons_ne {c : UInt8} {ds : Str} (h : (digits 16 (c :: ds)).length = ds.length + 1) :
    (c ≠ quote ∧ c ≠ backslash) ∧ (digits 16 ds).length = ds.length := by
  rw [digits] at h
  cases hd : digit 16 c with
  | none =>
    rw [hd] at h
    simp at h
  | some d =>
    rw [hd] at h
    refine ⟨⟨?_, ?_⟩, by simpa using h⟩
    · rintro rfl
      rw [show digit 16 quote = none by decide] at hd
      cases hd
    · rintro rfl
      rw [show digit 16 backslash = none by decide] at hd
      cases hd

theorem raw_digits {ds raw : Str} (all : (digits 16 ds).length = ds.length) (rest : Raw raw) :
    Raw (ds ++ raw) := by
  induction ds with
  | nil => exact rest
  | cons c ds ih =>
    obtain ⟨plain, all'⟩ := digits_cons_ne all
    exact .char plain (ih all')

theorem codeUnit_digits {ds : Str} {n : Nat} (h : codeUnit ds = some n) :
    (digits 16 ds).length = ds.length := by
  unfold codeUnit at h
  split at h
  · rename_i four
    rw [four.1, four.2]
  · cases h

theorem Spells.raw {raw value : Str} (h : Spells raw value) : Raw raw := by
  induction h with
  | nil => exact .nil
  | char plain _ ih => exact .char ⟨plain.1, plain.2.1⟩ ih
  | escape _ _ ih => exact .escape ih
  | unicode unit _ _ ih => exact .escape (raw_digits (codeUnit_digits unit) ih)
  | pair high low _ _ ih =>
    exact .escape (raw_digits (codeUnit_digits high) (.escape (raw_digits (codeUnit_digits low) ih)))

/-- Whether the escapes among the first `n` characters of a string are of those that `copy_str` resolves. -/
def simpleEscapes : (n : Nat) → Str → Bool
  | 0, _ => true
  | _ + 1, [] => true
  | _ + 1, [_] => true
  | n + 1, c :: d :: s =>
    if c = backslash then d ≠ 0x62 && d ≠ 0x66 && d ≠ 0x75 && simpleEscapes n s else simpleEscapes n (d :: s)

theorem unescape_char {c : UInt8} (h : c ≠ backslash) (s : Str) : unescape (c :: s) = c :: unescape s := by
  cases s with
  | nil => rfl
  | cons d s => rw [unescape, if_neg h]

theorem simpleEscapes_char {c : UInt8} (h : c ≠ backslash) (n : Nat) (s : Str) :
    simpleEscapes (n + 1) (c :: s) = simpleEscapes n s := by
  cases s with
  | nil => cases n <;> rfl
  | cons d s => rw [simpleEscapes, if_neg h]

theorem escaped_simple {d e : UInt8} (means : escaped d = some e) (simple : d ≠ 0x62 ∧ d ≠ 0x66) :
    (if d = 0x6E then 0x0A else if d = 0x74 then 0x09 else if d = 0x72 then 0x0D else d) = e ∧ e ≠ 0 := by
  unfold escaped at means
  split at means
  · rename_i self
    obtain rfl := Option.some.inj means
    rcases self with rfl | rfl | rfl
    · decide
    · decide
    · decide
  · rw [if_neg simple.1, if_neg simple.2] at means
    split at means
    · rename_i h
      rw [h]
      obtain rfl := Option.some.inj means
      decide
    · split at means
      · rename_i h
        rw [h]
        obtain rfl := Option.some.inj means
        decide
      · split at means
        · rename_i h
          rw [h]
          obtain rfl := Option.some.inj means
          decide
        · cases means

theorem Spells.nil_iff {raw value : Str} (h : Spells raw value) : (unescape raw).length ≤ 0 ↔ value.length ≤ 0 := by
  have encoded (c : Char) : c.utf8Size ≠ 0 := (c.utf8Size_pos).ne'
  cases h with
  | nil => rfl
  | char plain _ => simp [unescape_char plain.2.1]
  | escape _ _ => simp [Repo.unescape]
  | unicode _ _ _ => simp [Repo.unescape, encoded]
  | pair _ _ _ _ => simp [Repo.unescape, encoded]

/-- As far as its escapes are simple, `copy_str` reads a string as what it means. -/
theorem Spells.unescape {raw value : Str} (h : Spells raw value) {n : Nat} (simple : simpleEscapes n raw = true) :
    (unescape raw).take n = value.take n ∧ 0 ∉ value.take n ∧
      ((Repo.unescape raw).length ≤ n ↔ value.length ≤ n) := by
  induction h generalizing n with
  | nil => exact ⟨rfl, by simp, Iff.rfl⟩
  | @char c raw value plain rest ih =>
    cases n with
    | zero => exact ⟨rfl, by simp, (Spells.char plain rest).nil_iff⟩
    | succ n =>
      rw [simpleEscapes_char plain.2.1] at simple
      obtain ⟨same, zero, short⟩ := ih simple
      refine ⟨by rw [unescape_char plain.2.1, List.take_succ_cons, List.take_succ_cons, same], ?_, ?_⟩
      · rw [List.take_succ_cons, List.mem_cons, not_or]
        refine ⟨?_, zero⟩
        rintro rfl
        exact absurd plain.2.2 (by decide)
      · rw [unescape_char plain.2.1, List.length_cons, List.length_cons, Nat.add_le_add_iff_right,
          Nat.add_le_add_iff_right, short]
  | @escape d e raw value means rest ih =>
    cases n with
    | zero => exact ⟨rfl, by simp, (Spells.escape means rest).nil_iff⟩
    | succ n =>
      rw [simpleEscapes, if_pos rfl, Bool.and_eq_true, Bool.and_eq_true, Bool.and_eq_true] at simple
      obtain ⟨⟨⟨b, f⟩, _⟩, simple⟩ := simple
      obtain ⟨same, zero, short⟩ := ih simple
      obtain ⟨eq, ne⟩ := escaped_simple means ⟨by simpa using b, by simpa using f⟩
      refine ⟨by rw [Repo.unescape, if_pos rfl, eq, List.take_succ_cons, List.take_succ_cons, same], ?_, ?_⟩
      · rw [List.take_succ_cons, List.mem_cons, not_or]
        exact ⟨Ne.symm ne, zero⟩
      · rw [Repo.unescape, if_pos rfl, List.length_cons, List.length_cons, Nat.add_le_add_iff_right,
          Nat.add_le_add_iff_right, short]
  | unicode unit scalar rest _ =>
    cases n with
    | zero => exact ⟨rfl, by simp, (Spells.unicode unit scalar rest).nil_iff⟩
    | succ n =>
      rw [simpleEscapes, if_pos rfl, Bool.and_eq_true, Bool.and_eq_true] at simple
      exact absurd simple.1.2 (by decide)
  | pair high low range rest _ =>
    cases n with
    | zero => exact ⟨by rw [List.take_zero, List.take_zero], by simp, (Spells.pair high low range rest).nil_iff⟩
    | succ n =>
      rw [simpleEscapes, if_pos rfl, Bool.and_eq_true, Bool.and_eq_true] at simple
      exact absurd simple.1.2 (by decide)

/-! ### Scanning strings -/

theorem stringBody_quote (s : Str) : stringBody (quote :: s) = some ([], s) := by
  cases s with
  | nil => rfl
  | cons d s => rfl

theorem stringBody_char {c : UInt8} (plain : c ≠ quote ∧ c ≠ backslash) (s : Str) :
    stringBody (c :: s) = (stringBody s).map fun r => (c :: r.1, r.2) := by
  cases s with
  | nil => simp [stringBody, plain.1]
  | cons d s => rw [stringBody, if_neg plain.2, if_neg plain.1]

/-- A string is read up to its closing quote. -/
theorem Raw.stringBody {raw : Str} (h : Raw raw) (rest : Str) :
    stringBody (raw ++ quote :: rest) = some (raw, rest) := by
  induction h with
  | nil => exact stringBody_quote rest
  | char plain _ ih => rw [List.cons_append, stringBody_char plain, ih]; rfl
  | escape _ ih => rw [List.cons_append, List.cons_append, Repo.stringBody, if_pos rfl, ih]; rfl

/-- Characters in front of a quote are passed over. -/
theorem nextString_skip {gap : Str} (plain : quote ∉ gap) (s : Str) :
    nextString (gap ++ s) = nextString s := by
  rw [nextString, nextString, List.dropWhile_append_of_pos]
  intro c mem
  simp only [ne_eq, decide_not, Bool.not_eq_true', decide_eq_false_iff_not]
  rintro rfl
  exact plain mem

theorem nextString_quote {raw : Str} (h : Raw raw) (rest : Str) :
    nextString (quote :: (raw ++ quote :: rest)) = some (raw, rest) := by
  rw [nextString, List.dropWhile_cons_of_neg (by simp)]
  exact h.stringBody rest

/-! ### Values -/

mutual

/-- A JSON value with its layout.  A gap is what stands between a value and the next one. -/
inductive Json
  | str (raw : Str)
  | atom (text : Str)
  | arr (front : Str) (items : Items)
  | obj (front : Str) (members : Members)

inductive Items
  | nil
  | cons (v : Json) (gap : Str) (rest : Items)

inductive Members
  | nil
  | cons (key colon : Str) (v : Json) (gap : Str) (rest : Members)

end

mutual

def Json.render : Json → Str
  | .str raw => quote :: (raw ++ [quote])
  | .atom text => text
  | .arr front items => 0x5B :: (front ++ (items.render ++ [0x5D]))
  | .obj front members => 0x7B :: (front ++ (members.render ++ [0x7D]))

def Items.render : Items → Str
  | .nil => []
  | .cons v gap rest => v.render ++ (gap ++ rest.render)

def Members.render : Members → Str
  | .nil => []
  | .cons key colon v gap rest => quote :: (key ++ quote :: (colon ++ (v.render ++ (gap ++ rest.render))))

end

/-- White space. -/
def Ws (s : Str) : Prop := ∀ c ∈ s, c = 0x20 ∨ c = 0x09 ∨ c = 0x0A ∨ c = 0x0D

/-- A separator with white space around it. -/
def Separated (sep : UInt8) (gap : Str) : Prop := ∃ a b, Ws a ∧ Ws b ∧ gap = a ++ sep :: b

/-- A number, with its value: an integer part, a fraction and an exponent. -/
inductive Number : Str → ℚ → Prop
  | intro {whole frac power : Str} {minus : Bool} {mark sign : Str} {down : Bool}
      (digits_ : whole ≠ [] ∧ ∀ c ∈ whole ++ frac ++ power, isDigit c = true)
      (leading : whole.head? = some 0x30 → whole = [0x30])
      (mark_ : mark = [] ∧ power = [] ∧ sign = [] ∧ down = false ∨
        (mark = [0x65] ∨ mark = [0x45]) ∧ power ≠ [] ∧
          (sign = [] ∧ down = false ∨ sign = [0x2B] ∧ down = false ∨ sign = [0x2D] ∧ down = true)) :
      Number ((if minus then [0x2D] else []) ++ whole ++ (if frac = [] then [] else 0x2E :: frac) ++ mark ++
          sign ++ power)
        ((if minus then -1 else 1) * ofDigits 10 (digits 10 (whole ++ frac)) / 10 ^ frac.length *
          (if down then (10 ^ ofDigits 10 (digits 10 power))⁻¹ else 10 ^ ofDigits 10 (digits 10 power)))

/-- A number or one of the three words. -/
def IsAtom (text : Str) : Prop :=
  text = ascii "true" ∨ text = ascii "false" ∨ text = ascii "null" ∨ ∃ n, Number text n

mutual

/-- The tree is JSON: strings are spelled, atoms are atoms, and one separator stands where it belongs. -/
def Json.Valid : Json → Prop
  | .str raw => ∃ value, Spells raw value
  | .atom text => IsAtom text
  | .arr front items => Ws front ∧ items.Valid
  | .obj front members => Ws front ∧ members.Valid

def Items.Valid : Items → Prop
  | .nil => True
  | .cons v gap .nil => v.Valid ∧ Ws gap
  | .cons v gap rest => v.Valid ∧ Separated comma gap ∧ rest.Valid

def Members.Valid : Members → Prop
  | .nil => True
  | .cons key colon v gap .nil => (∃ k, Spells key k) ∧ Separated 0x3A colon ∧ v.Valid ∧ Ws gap
  | .cons key colon v gap rest =>
    (∃ k, Spells key k) ∧ Separated 0x3A colon ∧ v.Valid ∧ Separated comma gap ∧ rest.Valid

end

end RPCortex.Repo
