import RPCortex.Lib.Text

/-! The DuckyScript reader, `ducky.cpp`: a line, and the runner over the lines of a script.  A string is the list of its
bytes before the NUL. -/

namespace RPCortex.Ducky

open Lib

abbrev Str : Type := List UInt8

/-- What an emitter is told. -/
inductive Event
  | key (mod kc : UInt8)
  | text (s : Str)
  | delay (ms : Nat)
  | hold (mod kc : UInt8)
  | release (mod kc : UInt8)
  | altstring (s : Str)
  deriving DecidableEq, Repr

/-- Which of the optional calls the emitter has. -/
structure Can where
  hold : Bool
  release : Bool
  altstring : Bool

/-- `DUCKY_OK`, `DUCKY_NOPACE` and `DUCKY_ERR`. -/
inductive Rc
  | ok
  | nopace
  | err
  deriving DecidableEq, Repr

def isBlank (c : UInt8) : Bool := c = 0x20 ∨ c = 0x09

def isLineEnd (c : UInt8) : Bool := c = 0x0D ∨ c = 0x0A

/-- `next_token`, into a buffer of 24 bytes: the token, and what is behind it. -/
def nextToken (s : Str) : Str × Str :=
  let s := s.dropWhile isBlank
  ((s.takeWhile fun c => !isBlank c && !isLineEnd c).take 23, s.dropWhile fun c => !isBlank c && !isLineEnd c)

def upper (c : UInt8) : UInt8 := if 0x61 ≤ c ∧ c ≤ 0x7A then c - 0x61 + 0x41 else c

/-- `upcopy`, into a buffer of 24 bytes. -/
def upcopy (s : Str) : Str := (s.take 23).map upper

/-- The loop of `parse_uint`. -/
def uintFrom (v : Nat) : Str → Option Nat
  | [] => some v
  | c :: rest =>
    if isLineEnd c || isBlank c then some v
    else if c < 0x30 ∨ 0x39 < c then none
    else
      let v := v * 10 + (c - 0x30).toNat
      if 3600000 < v then some 3600000 else uintFrom v rest

/-- `parse_uint`; `none` is `-1`. -/
def parseUint (s : Str) : Option Nat :=
  match s.dropWhile isBlank with
  | [] => none
  | s => uintFrom 0 s

/-! ### Keys -/

def modCtrl : UInt8 := 0x01

def modShift : UInt8 := 0x02

def modAlt : UInt8 := 0x04

def modGui : UInt8 := 0x08

def hkEnter : UInt8 := 0x28

def hkPrintscr : UInt8 := 0x46

/-- `modifier_bit`. -/
def modifierBit (t : Str) : UInt8 :=
  if t = ascii "CTRL" ∨ t = ascii "CONTROL" then modCtrl
  else if t = ascii "ALT" then modAlt
  else if t = ascii "SHIFT" then modShift
  else if t = ascii "GUI" ∨ t = ascii "WINDOWS" ∨ t = ascii "WIN" then modGui
  else 0

/-- The names that `named_key` knows, with their keycodes. -/
def keyNames : List (String × UInt8) :=
  [("ENTER", hkEnter), ("RETURN", hkEnter), ("ESC", 0x29), ("ESCAPE", 0x29), ("TAB", 0x2B), ("SPACE", 0x2C),
    ("BACKSPACE", 0x2A), ("DELETE", 0x4C), ("DEL", 0x4C), ("INSERT", 0x49), ("HOME", 0x4A), ("END", 0x4D),
    ("PAGEUP", 0x4B), ("PAGEDOWN", 0x4E), ("CAPSLOCK", 0x39), ("PRINTSCREEN", hkPrintscr), ("MENU", 0x65),
    ("APP", 0x65), ("UP", 0x52), ("UPARROW", 0x52), ("DOWN", 0x51), ("DOWNARROW", 0x51), ("LEFT", 0x50),
    ("LEFTARROW", 0x50), ("RIGHT", 0x4F), ("RIGHTARROW", 0x4F)]

def isDigit (c : UInt8) : Bool := 0x30 ≤ c ∧ c ≤ 0x39

/-- `F1` to `F12`. -/
def functionKey : Str → UInt8
  | 0x46 :: d :: rest =>
    if 0x31 ≤ d ∧ d ≤ 0x39 then
      let n := match rest with
        | e :: _ => if isDigit e then (d.toNat - 0x30) * 10 + (e.toNat - 0x30) else d.toNat - 0x30
        | [] => d.toNat - 0x30
      if 1 ≤ n ∧ n ≤ 12 then 0x3A + UInt8.ofNat n - 1 else 0
    else 0
  | _ => 0

/-- `named_key`. -/
def namedKey (t : Str) : UInt8 :=
  match keyNames.find? fun k => t = ascii k.1 with
  | some k => k.2
  | none => functionKey t

/-- The characters besides letters and digits that `hid_ascii_to_keycode` knows, with their keycodes and shifts. -/
def asciiKeys : List (UInt8 × UInt8 × Bool) :=
  [(0x20, 0x2C, false), (0x21, 0x1E, true), (0x22, 0x34, true), (0x23, 0x20, true), (0x24, 0x21, true),
    (0x25, 0x22, true), (0x26, 0x24, true), (0x27, 0x34, false), (0x28, 0x26, true), (0x29, 0x27, true),
    (0x2A, 0x25, true), (0x2B, 0x2E, true), (0x2C, 0x36, false), (0x2D, 0x2D, false), (0x2E, 0x37, false),
    (0x2F, 0x38, false), (0x3A, 0x33, true), (0x3B, 0x33, false), (0x3C, 0x36, true), (0x3D, 0x2E, false),
    (0x3E, 0x37, true), (0x3F, 0x38, true), (0x40, 0x1F, true), (0x5B, 0x2F, false), (0x5C, 0x31, false),
    (0x5D, 0x30, false), (0x5E, 0x23, true), (0x5F, 0x2D, true), (0x60, 0x35, false), (0x7B, 0x2F, true),
    (0x7C, 0x31, true), (0x7D, 0x30, true), (0x7E, 0x35, true)]

/-- `hid_ascii_to_keycode`. -/
def hidAsciiToKeycode (c : UInt8) : Option (UInt8 × Bool) :=
  if 0x61 ≤ c ∧ c ≤ 0x7A then some (0x04 + (c - 0x61), false)
  else if 0x41 ≤ c ∧ c ≤ 0x5A then some (0x04 + (c - 0x41), true)
  else if 0x31 ≤ c ∧ c ≤ 0x39 then some (0x1E + (c - 0x31), false)
  else if c = 0x30 then some (0x27, false)
  else (asciiKeys.find? fun k => k.1 = c).map Prod.snd

/-- The loop of `parse_chord`. -/
def chordFrom (mod kc : UInt8) : (fuel : Nat) → Str → Option (UInt8 × UInt8)
  | 0, _ => some (mod, kc)
  | fuel + 1, s =>
    let (tok, rest) := nextToken s
    if tok = [] then some (mod, kc)
    else if modifierBit (upcopy tok) ≠ 0 then chordFrom (mod ||| modifierBit (upcopy tok)) kc fuel rest
    else if namedKey (upcopy tok) ≠ 0 then chordFrom mod (namedKey (upcopy tok)) fuel rest
    else
      match tok with
      | [c] =>
        match hidAsciiToKeycode c with
        | some (k, shift) => chordFrom (if shift then mod ||| modShift else mod) k fuel rest
        | none => none
      | _ => none

/-- `parse_chord`: every token takes a byte at least, so there are no more of them than bytes. -/
def parseChord (rest : Str) : Option (UInt8 × UInt8) := chordFrom 0 0 (rest.length + 1) rest

/-! ### A line -/

/-- `run_chord`. -/
def runChord (rest : Str) : Rc × List Event :=
  match parseChord rest with
  | some (mod, kc) => (.ok, [.key mod kc])
  | none => (.err, [])

/-- `ducky_run_line`: what it returns and emits, and the default delay that it sets. -/
def duckyRunLine (can : Can) (line : Str) : Rc × List Event × Option Nat :=
  let (raw, p) := nextToken line
  if raw = [] then (.nopace, [], none)
  else
    let cmd := upcopy raw
    let rest := p.dropWhile isBlank
    if cmd = ascii "REM" ∨ raw.head? = some 0x23 then (.nopace, [], none)
    else if cmd = ascii "STRING" then (.ok, [.text rest], none)
    else if cmd = ascii "STRINGLN" then (.ok, [.text rest, .key 0 hkEnter], none)
    else if cmd = ascii "DELAY" then
      match parseUint rest with
      | none => (.err, [], none)
      | some ms => (.ok, [.delay ms], none)
    else if cmd = ascii "DEFAULTDELAY" ∨ cmd = ascii "DEFAULT_DELAY" then
      match parseUint rest with
      | none => (.err, [], none)
      | some ms => (.nopace, [], some ms)
    else if cmd = ascii "HOLD" then
      if can.hold then
        match parseChord rest with
        | none => (.err, [], none)
        | some (mod, kc) => (.ok, [.hold mod kc], none)
      else (.nopace, [], none)
    else if cmd = ascii "RELEASE" then
      if can.release then
        if rest = [] then (.ok, [.release 0 0], none)
        else
          match parseChord rest with
          | none => (.err, [], none)
          | some (mod, kc) => (.ok, [.release mod kc], none)
      else (.nopace, [], none)
    else if cmd = ascii "ALTSTRING" ∨ cmd = ascii "ALTCHAR" then
      if can.altstring then (.ok, [.altstring rest], none) else (.nopace, [], none)
    else if cmd = ascii "SYSRQ" then
      if can.hold && can.release then
        match parseChord rest with
        | none => (.err, [], none)
        | some (mod, kc) =>
          if kc = 0 then (.err, [], none)
          else (.ok, [.hold modAlt 0, .hold 0 hkPrintscr, .key mod kc, .release 0 0], none)
      else (.nopace, [], none)
    else if cmd = ascii "WAIT_FOR_BUTTON_PRESS" then (.nopace, [], none)
    else if cmd = ascii "REPEAT" ∨ cmd = ascii "REM_BLOCK" ∨ cmd = ascii "END_REM" then (.nopace, [], none)
    else
      let (rc, events) := runChord line
      (rc, events, none)

/-- `first_word_upper`, into a buffer of 24 bytes. -/
def firstWordUpper (line : Str) : Str :=
  (((line.dropWhile isBlank).takeWhile fun c => !isBlank c && !isLineEnd c).take 23).map upper

/-! ### The runner -/

/-- What decides which lines are run: the variables of `ducky_run` and the line of the first error. -/
structure Control where
  lineno : Nat
  inBlock : Bool
  prev : Str
  errorLine : Nat
  deriving DecidableEq, Repr

/-- The state of `ducky_run`; `asks` counts the calls of `stop`. -/
structure Run where
  control : Control
  delay : Nat
  lines : Nat
  asks : Nat
  out : List Event
  deriving DecidableEq, Repr

/-- An emitter: the calls it has, and what `stop` answers, by the number of the call and what was emitted before. -/
structure Emit where
  can : Can
  stop : Nat → List Event → Bool

variable (e : Emit)

/-- The call of `stop`. -/
def Run.ask (r : Run) : Bool × Run := (e.stop r.asks r.out, { r with asks := r.asks + 1 })

/-- A line is run and counted. -/
def Run.command (line : Str) (r : Run) : Rc × Run :=
  let (rc, events, delay) := duckyRunLine e.can line
  (rc, { r with out := r.out ++ events, delay := delay.getD r.delay, lines := r.lines + 1 })

/-- The default delay behind a command. -/
def Run.paced (rc : Rc) (r : Run) : Run :=
  if rc = .ok ∧ r.delay ≠ 0 then { r with out := r.out ++ [.delay r.delay] } else r

/-- The loop of `REPEAT`. -/
def Run.repeats : (times : Nat) → Run → Run
  | 0, r => r
  | times + 1, r =>
    if r.control.prev = [] then r
    else
      let (stop, r) := r.ask e
      if stop then r
      else
        let (rc, r) := r.command e r.control.prev
        Run.repeats times (r.paced rc)

/-- The line is the first with an error, if there is none before it. -/
def Control.flag (c : Control) : Control := if c.errorLine = 0 then { c with errorLine := c.lineno } else c

/-- The argument of `REPEAT`, behind the first word of the line. -/
def repeatCount (line : Str) : Option Nat := parseUint (line.dropWhile fun c => !isBlank c)

/-- What a line does that is not behind a stop. -/
def Run.line (line : Str) (r : Run) : Run :=
  let word := firstWordUpper line
  if r.control.inBlock then
    if word = ascii "END_REM" then { r with control := { r.control with inBlock := false } } else r
  else if word = ascii "REM_BLOCK" then { r with control := { r.control with inBlock := true } }
  else if word = ascii "REPEAT" then
    match repeatCount line with
    | none => { r with control := r.control.flag }
    | some times => r.repeats e (min times 10000)
  else
    let (rc, r) := r.command e line
    let r := if rc = .err then { r with control := r.control.flag } else r
    let r := if rc = .ok then { r with control := { r.control with prev := line } } else r
    r.paced rc

/-- The loop of `ducky_run` over the lines. -/
def Run.all : List Str → Run → Run
  | [], r => r
  | line :: lines, r =>
    if 4096 ≤ r.control.lineno then r
    else
      let (stop, r) := Run.ask e { r with control := { r.control with lineno := r.control.lineno + 1 } }
      if stop then r else Run.all lines (r.line e (line.take 255))

def start : Run := ⟨⟨0, false, [], 0⟩, 0, 0, 0, []⟩

/-- `ducky_run`: what it emits, the line of the first error, and the number of lines. -/
def duckyRun (script : Str) : List Event × Nat × Nat :=
  let r := start.all e (splitLines 0x0A script)
  (r.out, r.control.errorLine, r.lines)

/-! ### Indentation -/

/-- The second line is the first behind spaces and tabs. -/
def Indents (l l' : Str) : Prop := ∃ w, (∀ c ∈ w, isBlank c = true) ∧ l' = w ++ l

/-- The same, of what a `REPEAT` replays. -/
def Alike (p p' : Str) : Prop := Indents p p' ∧ (p = [] ↔ p' = [])

variable {e} {can : Can} {l l' p p' : Str} {r : Run} {c c' : Control}

theorem Indents.dropWhile_eq (h : Indents l l') : l'.dropWhile isBlank = l.dropWhile isBlank := by
  obtain ⟨w, blanks, rfl⟩ := h
  exact List.dropWhile_append_of_pos blanks

theorem Indents.nextToken_eq (h : Indents l l') : nextToken l' = nextToken l := by
  unfold nextToken
  rw [h.dropWhile_eq]

theorem Indents.firstWordUpper_eq (h : Indents l l') : firstWordUpper l' = firstWordUpper l := by
  unfold firstWordUpper
  rw [h.dropWhile_eq]

theorem length_nextToken (s : Str) (some_ : (nextToken s).1 ≠ []) : (nextToken s).2.length < s.length := by
  unfold nextToken at some_ ⊢
  dsimp only at some_ ⊢
  have shorter := (List.dropWhile_sublist isBlank (l := s)).length_le
  have parts := congrArg List.length
    (List.takeWhile_append_dropWhile (p := fun c => !isBlank c && !isLineEnd c) (l := s.dropWhile isBlank))
  rw [List.length_append] at parts
  have pos : 0 < ((s.dropWhile isBlank).takeWhile fun c => !isBlank c && !isLineEnd c).length := by
    by_contra zero
    have none_ : (s.dropWhile isBlank).takeWhile (fun c => !isBlank c && !isLineEnd c) = [] :=
      List.length_eq_zero_iff.mp (by omega)
    exact some_ (by rw [none_, List.take_nil])
  omega

theorem chordFrom_stable {mod kc : UInt8} {n m : Nat} {s : Str} (enough : s.length < n) (also : s.length < m) :
    chordFrom mod kc n s = chordFrom mod kc m s := by
  induction n generalizing mod kc m s with
  | zero => omega
  | succ n ih =>
    obtain ⟨m, rfl⟩ := Nat.exists_eq_add_of_lt (Nat.zero_lt_of_lt also)
    rw [Nat.zero_add, chordFrom, chordFrom]
    by_cases none_ : (nextToken s).1 = []
    · simp only [none_, if_true]
    · have less := length_nextToken s none_
      simp only [none_, if_false]
      have next : ∀ mod kc, chordFrom mod kc n (nextToken s).2 = chordFrom mod kc m (nextToken s).2 :=
        fun mod kc => ih (by omega) (by omega)
      simp only [next]

theorem parseChord_eq {s : Str} {n : Nat} (enough : s.length < n) : parseChord s = chordFrom 0 0 n s :=
  chordFrom_stable (Nat.lt_succ_self _) enough

theorem Indents.runChord_eq (h : Indents l l') : runChord l' = runChord l := by
  have same : parseChord l' = parseChord l := by
    have left : l.length < l'.length + l.length + 1 := by omega
    have right : l'.length < l'.length + l.length + 1 := by omega
    rw [parseChord_eq left, parseChord_eq right, chordFrom, chordFrom, h.nextToken_eq]
  rw [runChord, runChord, same]

/-- The interpreter takes no notice of blanks in front of a line. -/
theorem Indents.runLine_eq (h : Indents l l') : duckyRunLine can l' = duckyRunLine can l := by
  unfold duckyRunLine
  rw [h.nextToken_eq, h.runChord_eq]

theorem ne_nil_of_ok (ok : (duckyRunLine can l).1 = .ok) : l ≠ [] := by
  rintro rfl
  simp [duckyRunLine, nextToken] at ok

/-- The runner does: the count of an indented `REPEAT` is not found. -/
theorem Indents.repeatCount_eq (h : Indents l l') (word : firstWordUpper l = ascii "REPEAT") :
    repeatCount l' = repeatCount l ∨ repeatCount l' = none := by
  obtain ⟨w, blanks, same⟩ := h
  cases w with
  | nil => exact .inl (by rw [same, List.nil_append])
  | cons b w =>
    have blank : isBlank b = true := blanks b List.mem_cons_self
    right
    have whole : l'.dropWhile (fun c => !isBlank c) = l' := by rw [same, List.cons_append]; simp [blank]
    rw [repeatCount, whole, parseUint, Indents.dropWhile_eq ⟨b :: w, blanks, same⟩]
    unfold firstWordUpper at word
    cases first : l.dropWhile isBlank with
    | nil => rfl
    | cons c t =>
      -- the word begins with an R, which is no digit
      rw [first] at word
      have letter : isBlank c = false ∧ isLineEnd c = false ∧ upper c = 0x52 := by
        by_cases inWord : (!isBlank c && !isLineEnd c) = true
        · rw [List.takeWhile_cons, if_pos inWord, List.take_succ_cons, List.map_cons] at word
          rw [Bool.and_eq_true, Bool.not_eq_true', Bool.not_eq_true'] at inWord
          exact ⟨inWord.1, inWord.2, (List.cons.inj word).1⟩
        · rw [List.takeWhile_cons, if_neg inWord] at word
          exact absurd word (by decide)
      have high : (0x39 : UInt8) < c := by
        have same := letter.2.2
        unfold upper at same
        split at same
        next small => exact UInt8.lt_of_lt_of_le (show (0x39 : UInt8) < 0x61 by decide) small.1
        · rw [same]
          decide
      simp [uintFrom, letter.1, letter.2.1, high]

/-! ### Two runs -/

/-- The run with another line to repeat. -/
def Run.withPrev (r : Run) (p : Str) : Run := { r with control := { r.control with prev := p } }

theorem command_withPrev (h : Indents l l') :
    (r.withPrev p).command e l' = ((r.command e l).1, (r.command e l).2.withPrev p) := by
  unfold Run.command
  rw [h.runLine_eq]
  rfl

theorem paced_withPrev (rc : Rc) : (r.withPrev p).paced rc = (r.paced rc).withPrev p := by
  unfold Run.paced Run.withPrev
  dsimp only
  split <;> rfl

theorem paced_control (rc : Rc) : (r.paced rc).control = r.control := by
  unfold Run.paced
  split <;> rfl

/-- One more repetition. -/
def Run.again (e : Emit) (r : Run) : Run :=
  let r := { r with asks := r.asks + 1 }
  (r.command e r.control.prev).2.paced (r.command e r.control.prev).1

theorem repeats_succ (times : Nat) :
    r.repeats e (times + 1) =
      if r.control.prev = [] then r
      else if e.stop r.asks r.out then { r with asks := r.asks + 1 } else (r.again e).repeats e times := by
  rw [Run.repeats]
  split <;> rfl

theorem again_control : (r.again e).control = r.control := by
  unfold Run.again
  rw [paced_control]
  rfl

theorem again_withPrev (alike : Alike r.control.prev p) : (r.withPrev p).again e = (r.again e).withPrev p := by
  have ran := @command_withPrev e r.control.prev p p { r with asks := r.asks + 1 } alike.1
  unfold Run.again
  rw [← paced_withPrev]
  exact congrArg (fun x : Rc × Run => x.2.paced x.1) ran

theorem repeats_control (times : Nat) : (r.repeats e times).control = r.control := by
  induction times generalizing r with
  | zero => rfl
  | succ times ih =>
    rw [repeats_succ]
    split
    · rfl
    · split
      · rfl
      · rw [ih, again_control]

/-- A `REPEAT` of a line with other blanks in front does the same. -/
theorem repeats_withPrev (alike : Alike r.control.prev p) (times : Nat) :
    (r.withPrev p).repeats e times = (r.repeats e times).withPrev p := by
  induction times generalizing r with
  | zero => rfl
  | succ times ih =>
    rw [repeats_succ, repeats_succ]
    by_cases none_ : r.control.prev = []
    · rw [if_pos none_, if_pos (show (r.withPrev p).control.prev = [] from alike.2.mp none_)]
    · rw [if_neg none_, if_neg (show ¬(r.withPrev p).control.prev = [] from mt alike.2.mpr none_)]
      by_cases stop : e.stop r.asks r.out = true
      · rw [if_pos stop, if_pos (show e.stop (r.withPrev p).asks (r.withPrev p).out = true from stop)]
        rfl
      · rw [if_neg stop, if_neg (show ¬e.stop (r.withPrev p).asks (r.withPrev p).out = true from stop),
          again_withPrev alike]
        exact ih (by rw [again_control]; exact alike)

/-- What the lines make of the variables that decide which lines are run. -/
def Control.next (can : Can) (line : Str) (c : Control) : Control :=
  let word := firstWordUpper line
  if c.inBlock then if word = ascii "END_REM" then { c with inBlock := false } else c
  else if word = ascii "REM_BLOCK" then { c with inBlock := true }
  else if word = ascii "REPEAT" then if repeatCount line = none then c.flag else c
  else
    match (duckyRunLine can line).1 with
    | .ok => { c with prev := line }
    | .nopace => c
    | .err => c.flag

theorem line_control (line : Str) : (r.line e line).control = r.control.next e.can line := by
  unfold Run.line Control.next
  dsimp only
  split
  · split <;> rfl
  · split
    · rfl
    · split
      · cases count : repeatCount line with
        | none => rfl
        | some times => simp [repeats_control]
      · unfold Run.paced Run.command
        dsimp only
        cases (duckyRunLine e.can line).1
        · simp
          split <;> rfl
        · simp
        · simp

/-- Indenting the line does no harm: it is not a `REPEAT` that loses its count, or one whose count leads to nothing
behind an error. -/
def Harmless (c : Control) (l l' : Str) : Prop :=
  c.inBlock = false → firstWordUpper l = ascii "REPEAT" → repeatCount l' = repeatCount l ∨
    c.errorLine ≠ 0 ∧ (repeatCount l = some 0 ∨ c.prev = [])

/-- The variables behind a line with an error. -/
def Run.flagged (r : Run) : Run := { r with control := r.control.flag }

theorem flagged_withPrev : (r.withPrev p).flagged = r.flagged.withPrev p := by
  unfold Run.flagged Run.withPrev Control.flag
  dsimp only
  split <;> rfl

theorem flagged_eq (error : r.control.errorLine ≠ 0) : r.flagged = r := by
  unfold Run.flagged Control.flag
  rw [if_neg error]

theorem repeats_nil (none_ : r.control.prev = []) (times : Nat) : r.repeats e times = r := by
  cases times with
  | zero => rfl
  | succ times => rw [repeats_succ, if_pos none_]

/-- Outside a block comment, a `REPEAT`. -/
theorem line_repeat (outside : r.control.inBlock = false) (word : firstWordUpper l = ascii "REPEAT") :
    r.line e l = (repeatCount l).elim r.flagged fun times => r.repeats e (min times 10000) := by
  have other : firstWordUpper l ≠ ascii "REM_BLOCK" := by
    rw [word]
    decide
  unfold Run.line
  simp only [outside, word, Bool.false_eq_true, if_false, if_true]
  rw [if_neg (by decide)]
  cases repeatCount l <;> rfl

/-- Outside a block comment, a line for the interpreter. -/
theorem line_command (outside : r.control.inBlock = false) (noBlock : firstWordUpper l ≠ ascii "REM_BLOCK")
    (noRepeat : firstWordUpper l ≠ ascii "REPEAT") :
    r.line e l =
      match (r.command e l).1 with
      | .ok => ((r.command e l).2.withPrev l).paced .ok
      | .nopace => (r.command e l).2
      | .err => (r.command e l).2.flagged := by
  unfold Run.line
  simp only [outside, Bool.false_eq_true, noBlock, noRepeat, if_false]
  cases rc : (r.command e l).1 <;> simp [Run.paced, Run.withPrev, Run.flagged]

/-- A line and its indented form do the same. -/
theorem line_withPrev (alike : Alike r.control.prev p) (h : Indents l l') (harmless : Harmless r.control l l') :
    ∃ p', (r.withPrev p).line e l' = (r.line e l).withPrev p' ∧ Alike (r.line e l).control.prev p' := by
  have word := h.firstWordUpper_eq
  by_cases outside : r.control.inBlock = false
  · have outside' : (r.withPrev p).control.inBlock = false := outside
    by_cases repeat_ : firstWordUpper l = ascii "REPEAT"
    · rw [line_repeat outside repeat_, line_repeat outside' (word.trans repeat_)]
      by_cases same : repeatCount l' = repeatCount l
      · rw [same]
        cases repeatCount l with
        | none =>
          refine ⟨p, flagged_withPrev, ?_⟩
          unfold Option.elim Run.flagged Control.flag
          dsimp only
          split <;> exact alike
        | some times =>
          exact ⟨p, repeats_withPrev alike _, by rw [Option.elim, repeats_control]; exact alike⟩
      · -- the count is lost, behind an error and where it would lead to nothing
        obtain ⟨error, nothing⟩ := (harmless outside repeat_).resolve_left same
        have lost := (h.repeatCount_eq repeat_).resolve_left same
        have stays : ((repeatCount l).elim r.flagged fun times => r.repeats e (min times 10000)) = r := by
          rcases nothing with zero | none_
          · rw [zero]
            rfl
          · cases repeatCount l with
            | none => exact flagged_eq error
            | some times => exact repeats_nil none_ _
        rw [stays, lost]
        exact ⟨p, flagged_withPrev.trans (by rw [flagged_eq error]), alike⟩
    · by_cases block : firstWordUpper l = ascii "REM_BLOCK"
      · refine ⟨p, ?_, ?_⟩ <;> simp only [Run.line, word, block, Run.withPrev, outside] <;> first | rfl | exact alike
      · rw [line_command outside block repeat_, line_command outside' (by rwa [word]) (by rwa [word]),
          command_withPrev h]
        cases rc : (r.command e l).1 with
        | ok =>
          have some_ : l ≠ [] := ne_nil_of_ok rc
          refine ⟨l', ?_, ?_⟩
          · exact paced_withPrev (r := (r.command e l).2.withPrev l) .ok
          · dsimp only
            rw [paced_control]
            refine ⟨h, fun none_ => absurd none_ some_, fun none_ => ?_⟩
            obtain ⟨w, _, rfl⟩ := h
            exact (List.append_eq_nil_iff.mp none_).2
        | nopace => exact ⟨p, rfl, alike⟩
        | err =>
          refine ⟨p, flagged_withPrev, ?_⟩
          dsimp only
          unfold Run.flagged Control.flag
          dsimp only
          split <;> exact alike
  · have inside : r.control.inBlock = true := by simpa using outside
    refine ⟨p, ?_, ?_⟩
    · simp only [Run.line, word, Run.withPrev, inside, if_true]
      split <;> simp [inside]
    · simp only [Run.line, inside, if_true]
      split <;> exact alike

/-- No line of the script is harmed by its indentation, from these variables on. -/
def Steady (can : Can) : List (Str × Str) → Control → Prop
  | [], _ => True
  | (l, l') :: rest, c =>
    c.lineno < 4096 →
      Harmless { c with lineno := c.lineno + 1 } l l' ∧
        Steady can rest (({ c with lineno := c.lineno + 1 } : Control).next can l)

/-- The run at its next line. -/
def Run.numbered (r : Run) : Run :=
  { r with control := { r.control with lineno := r.control.lineno + 1 }, asks := r.asks + 1 }

theorem all_cons (line : Str) (lines : List Str) (short : line.length ≤ 255) :
    r.all e (line :: lines) =
      if 4096 ≤ r.control.lineno then r
      else if e.stop r.asks r.out then r.numbered else (r.numbered.line e line).all e lines := by
  rw [Run.all, List.take_of_length_le short]
  rfl

/-- Two scripts whose lines fit the buffer, one of them with blanks in front of the other's lines. -/
def Indented : List Str → List Str → Prop := List.Forall₂ fun l l' => Indents l l' ∧ l'.length ≤ 255

theorem Indents.length_le (h : Indents l l') : l.length ≤ l'.length := by
  obtain ⟨w, _, rfl⟩ := h
  rw [List.length_append]
  omega

/-- Runs over lines that are not harmed do the same. -/
theorem all_withPrev {ls ls' : List Str} (indented : Indented ls ls') (alike : Alike r.control.prev p)
    (steady : Steady e.can (ls.zip ls') r.control) : ∃ p', (r.withPrev p).all e ls' = (r.all e ls).withPrev p' := by
  induction indented generalizing r p with
  | nil => exact ⟨p, rfl⟩
  | @cons l l' ls ls' first _ ih =>
    obtain ⟨h, fits⟩ := first
    rw [all_cons l' ls' fits, all_cons l ls (h.length_le.trans fits)]
    by_cases last : 4096 ≤ r.control.lineno
    · rw [if_pos last, if_pos (show 4096 ≤ (r.withPrev p).control.lineno from last)]
      exact ⟨p, rfl⟩
    · rw [if_neg last, if_neg (show ¬4096 ≤ (r.withPrev p).control.lineno from last)]
      by_cases stop : e.stop r.asks r.out = true
      · rw [if_pos stop, if_pos (show e.stop (r.withPrev p).asks (r.withPrev p).out = true from stop)]
        exact ⟨p, rfl⟩
      · rw [if_neg stop, if_neg (show ¬e.stop (r.withPrev p).asks (r.withPrev p).out = true from stop)]
        obtain ⟨harmless, rest⟩ := steady (Nat.lt_of_not_le last)
        obtain ⟨q, same, likewise⟩ := @line_withPrev e l l' p r.numbered alike h harmless
        have stepped : (r.withPrev p).numbered.line e l' = (r.numbered.line e l).withPrev q := same
        rw [stepped]
        exact ih likewise (by rw [line_control]; exact rest)

/-! ### What a harmed line changes -/

/-- An emitter that never asks to stop. -/
def unstopped (can : Can) : Emit := ⟨can, fun _ _ => false⟩

/-- The variables of two runs at the same line, but for their errors. -/
def Beside (c c' : Control) : Prop := c'.lineno = c.lineno ∧ c'.inBlock = c.inBlock ∧ Alike c.prev c'.prev

theorem Control.flag_beside (beside : Beside c c') : Beside c.flag c'.flag ∧ Beside c.flag c' ∧ Beside c c'.flag := by
  unfold Control.flag
  refine ⟨?_, ?_, ?_⟩
  · split <;> split <;> exact beside
  · split <;> exact beside
  · split <;> exact beside

theorem next_beside (beside : Beside c c') (h : Indents l l') : Beside (c.next can l) (c'.next can l') := by
  obtain ⟨both, left, right⟩ := Control.flag_beside beside
  unfold Control.next
  rw [h.firstWordUpper_eq, beside.2.1]
  dsimp only
  split
  · split
    · exact ⟨beside.1, rfl, beside.2.2⟩
    · exact beside
  · split
    · exact ⟨beside.1, rfl, beside.2.2⟩
    · split
      · split <;> split
        · exact both
        · exact left
        · exact right
        · exact beside
      · rw [h.runLine_eq]
        cases rc : (duckyRunLine can l).1 with
        | ok =>
          refine ⟨beside.1, rfl, h, fun none_ => absurd none_ (ne_nil_of_ok rc), fun none_ => ?_⟩
          obtain ⟨w, _, rfl⟩ := h
          exact (List.append_eq_nil_iff.mp none_).2
        | nopace => exact beside
        | err => exact both

/-- The lines that a line of the script adds to the count. -/
def gain (c : Control) (l : Str) : Nat :=
  if c.inBlock = true ∨ firstWordUpper l = ascii "REM_BLOCK" then 0
  else if firstWordUpper l = ascii "REPEAT" then
    (repeatCount l).elim 0 fun times => if c.prev = [] then 0 else min times 10000
  else 1

theorem repeats_lines (some_ : r.control.prev ≠ []) (times : Nat) :
    (r.repeats (unstopped can) times).lines = r.lines + times := by
  induction times generalizing r with
  | zero => rfl
  | succ times ih =>
    rw [repeats_succ, if_neg some_, if_neg (show ¬(unstopped can).stop r.asks r.out = true from Bool.false_ne_true),
      ih (by rwa [again_control])]
    have one : (r.again (unstopped can)).lines = r.lines + 1 := by
      unfold Run.again Run.paced
      dsimp only
      split <;> rfl
    omega

theorem line_lines : (r.line (unstopped can) l).lines = r.lines + gain r.control l := by
  unfold gain
  by_cases outside : r.control.inBlock = false
  · by_cases repeat_ : firstWordUpper l = ascii "REPEAT"
    · rw [line_repeat outside repeat_, repeat_, if_neg (by rw [outside]; decide), if_pos rfl]
      cases repeatCount l with
      | none => rfl
      | some times =>
        simp only [Option.elim]
        split
        next none_ => rw [repeats_nil none_]; rfl
        next some_ => exact repeats_lines some_ _
    · by_cases block : firstWordUpper l = ascii "REM_BLOCK"
      · rw [if_pos (.inr block)]
        simp [Run.line, outside, block]
      · rw [line_command outside block repeat_, if_neg (by rw [outside]; simp [block]), if_neg repeat_]
        have one : (r.command (unstopped can) l).2.lines = r.lines + 1 := rfl
        cases (r.command (unstopped can) l).1
        · dsimp only
          unfold Run.paced
          split <;> exact one
        · exact one
        · exact one
  · have inside : r.control.inBlock = true := by simpa using outside
    rw [if_pos (.inl inside)]
    simp only [Run.line, inside, if_true]
    split <;> rfl

theorem gain_le (beside : Beside c c') (h : Indents l l') : gain c' l' ≤ gain c l := by
  unfold gain
  rw [h.firstWordUpper_eq, beside.2.1]
  split
  · exact Nat.le_refl 0
  · split
    next repeat_ =>
      rcases h.repeatCount_eq repeat_ with same | none_
      · rw [same]
        cases repeatCount l with
        | none => exact Nat.le_refl 0
        | some times => simp only [Option.elim, beside.2.2.2, Nat.le_refl]
      · rw [none_]
        exact Nat.zero_le _
    · exact Nat.le_refl 1

/-- A run that has fallen behind in its count stays behind. -/
theorem all_lag {r r' : Run} {ls ls' : List Str} (indented : Indented ls ls') (beside : Beside r.control r'.control)
    (behind : r'.lines < r.lines) : (r'.all (unstopped can) ls').lines < (r.all (unstopped can) ls).lines := by
  induction indented generalizing r r' with
  | nil => exact behind
  | @cons l l' ls ls' first _ ih =>
    obtain ⟨h, fits⟩ := first
    rw [all_cons l' ls' fits, all_cons l ls (h.length_le.trans fits), beside.1]
    split
    · exact behind
    · rw [if_neg (show ¬(unstopped can).stop r'.asks r'.out = true from Bool.false_ne_true),
        if_neg (show ¬(unstopped can).stop r.asks r.out = true from Bool.false_ne_true)]
      have numbered : Beside r.numbered.control r'.numbered.control :=
        ⟨congrArg (· + 1) beside.1, beside.2.1, beside.2.2⟩
      refine ih ?_ ?_
      · rw [line_control, line_control]
        exact next_beside numbered h
      · rw [line_lines, line_lines]
        have : gain r'.numbered.control l' ≤ gain r.numbered.control l := gain_le numbered h
        have : r'.numbered.lines < r.numbered.lines := behind
        omega

theorem next_errorLine (can : Can) (l : Str) (c : Control) :
    (c.next can l).lineno = c.lineno ∧
      ((c.next can l).errorLine = c.errorLine ∨ c.errorLine = 0 ∧ (c.next can l).errorLine = c.lineno) := by
  have flag : c.flag.lineno = c.lineno ∧
      (c.flag.errorLine = c.errorLine ∨ c.errorLine = 0 ∧ c.flag.errorLine = c.lineno) := by
    unfold Control.flag
    split
    next zero => exact ⟨rfl, .inr ⟨zero, rfl⟩⟩
    · exact ⟨rfl, .inl rfl⟩
  unfold Control.next
  dsimp only
  split
  · split <;> exact ⟨rfl, .inl rfl⟩
  · split
    · exact ⟨rfl, .inl rfl⟩
    · split
      · split
        · exact flag
        · exact ⟨rfl, .inl rfl⟩
      · split
        · exact ⟨rfl, .inl rfl⟩
        · exact ⟨rfl, .inl rfl⟩
        · exact flag

/-- The first error stays, and one that comes later is in a later line. -/
theorem all_errorLine {ls : List Str} (fits : ∀ l ∈ ls, l.length ≤ 255) :
    (r.all e ls).control.errorLine = r.control.errorLine ∨
      r.control.errorLine = 0 ∧ r.control.lineno < (r.all e ls).control.errorLine := by
  induction ls generalizing r with
  | nil => exact .inl rfl
  | cons l ls ih =>
    rw [all_cons l ls (fits l List.mem_cons_self)]
    split
    · exact .inl rfl
    · split
      · exact .inl rfl
      · obtain ⟨lineno, error⟩ := next_errorLine e.can l r.numbered.control
        have rest := @ih (r.numbered.line e l) fun l mem => fits l (List.mem_cons_of_mem _ mem)
        rw [line_control] at rest
        have number : r.numbered.control.lineno = r.control.lineno + 1 := rfl
        have same : r.numbered.control.errorLine = r.control.errorLine := rfl
        omega

/-- Scripts that do the same for an emitter that never asks to stop have no harmed line. -/
theorem steady_of_same {ls ls' : List Str} (indented : Indented ls ls') (alike : Alike r.control.prev p)
    (error : ((r.withPrev p).all (unstopped can) ls').control.errorLine = (r.all (unstopped can) ls).control.errorLine)
    (count : ((r.withPrev p).all (unstopped can) ls').lines = (r.all (unstopped can) ls).lines) :
    Steady can (ls.zip ls') r.control := by
  induction indented generalizing r p with
  | nil => trivial
  | @cons l l' ls ls' first rest ih =>
    obtain ⟨h, fits⟩ := first
    have short := h.length_le.trans fits
    intro more
    have onward (r : Run) : ¬(unstopped can).stop r.asks r.out = true := Bool.false_ne_true
    rw [all_cons l' ls' fits, all_cons l ls short, if_neg (Nat.not_le.mpr more), if_neg (onward _),
      if_neg (show ¬4096 ≤ (r.withPrev p).control.lineno from Nat.not_le.mpr more), if_neg (onward _)] at error count
    have numbered : (r.withPrev p).numbered = r.numbered.withPrev p := rfl
    rw [numbered] at error count
    by_cases harmless : Harmless r.numbered.control l l'
    · obtain ⟨q, same, likewise⟩ := @line_withPrev (unstopped can) l l' p r.numbered alike h harmless
      rw [same] at error count
      have later := ih likewise error count
      rw [line_control] at later
      exact ⟨harmless, later⟩
    · -- the count is lost: the second run notes an error, and repeats nothing
      exfalso
      simp only [Harmless, not_forall, not_or] at harmless
      obtain ⟨outside, repeat_, lost, matters⟩ := harmless
      have none_ := (h.repeatCount_eq repeat_).resolve_left lost
      rw [none_] at lost
      obtain ⟨times, some_⟩ := Option.ne_none_iff_exists'.mp (Ne.symm lost)
      rw [line_repeat outside repeat_, some_, line_repeat (r := r.numbered.withPrev p) outside
        (h.firstWordUpper_eq.trans repeat_), none_, Option.elim, Option.elim, flagged_withPrev] at error count
      have fitsAll : ∀ a ∈ ls, a.length ≤ 255 := fun a mem => by
        obtain ⟨i, lt, rfl⟩ := List.getElem_of_mem mem
        have := (List.forall₂_iff_get.mp rest).2 i lt (by rw [← rest.length_eq]; exact lt)
        exact this.1.length_le.trans this.2
      have fitsAll' : ∀ a ∈ ls', a.length ≤ 255 := fun a mem => by
        obtain ⟨i, lt, rfl⟩ := List.getElem_of_mem mem
        exact ((List.forall₂_iff_get.mp rest).2 i (by rw [rest.length_eq]; exact lt) lt).2
      by_cases clean : r.numbered.control.errorLine = 0
      · have kept := @all_errorLine (unstopped can) (r.numbered.repeats (unstopped can) (min times 10000)) ls fitsAll
        have noted := @all_errorLine (unstopped can) (r.numbered.flagged.withPrev p) ls' fitsAll'
        rw [repeats_control] at kept
        have flag : (r.numbered.flagged.withPrev p).control.errorLine = r.numbered.control.lineno := by
          simp [Run.flagged, Run.withPrev, Control.flag, clean]
        have number : r.numbered.control.lineno = r.control.lineno + 1 := rfl
        omega
      · have pos : times ≠ 0 := fun zero => matters ⟨clean, .inl (by rw [some_, zero])⟩
        have prev : r.numbered.control.prev ≠ [] := fun none_ => matters ⟨clean, .inr none_⟩
        have more := @repeats_lines can _ prev (min times 10000)
        have still : (r.numbered.flagged.withPrev p).lines = r.numbered.lines := rfl
        rw [flagged_eq clean] at still count
        refine absurd count (Nat.ne_of_lt (all_lag rest ?_ ?_))
        · rw [repeats_control]
          exact ⟨rfl, rfl, alike⟩
        · omega

/-- Two scripts of which one is the other indented are run alike, whatever `stop` answers, if and only if no indented
`REPEAT` loses a count that matters. -/
theorem duckyRun_indented_iff {script script' : Str}
    (indented : Indented (splitLines 0x0A script) (splitLines 0x0A script')) :
    (∀ stop, duckyRun ⟨can, stop⟩ script' = duckyRun ⟨can, stop⟩ script) ↔
      Steady can ((splitLines 0x0A script).zip (splitLines 0x0A script')) start.control := by
  have begin : Alike start.control.prev [] := ⟨⟨[], by simp, rfl⟩, Iff.rfl⟩
  constructor
  · intro same
    have unstop := same fun _ _ => false
    unfold duckyRun at unstop
    dsimp only at unstop
    obtain ⟨_, others⟩ := Prod.ext_iff.mp unstop
    obtain ⟨error, count⟩ := Prod.ext_iff.mp others
    exact steady_of_same indented begin error count
  · intro steady stop
    obtain ⟨p, same⟩ := @all_withPrev ⟨can, stop⟩ [] start _ _ indented begin steady
    have empty : start.withPrev [] = start := rfl
    rw [empty] at same
    unfold duckyRun
    rw [same]
    rfl

theorem duckyRun_indented_iff_enter :
    Indented (splitLines 0x0A (ascii "ENTER\nREPEAT 2")) (splitLines 0x0A (ascii "  ENTER\nREPEAT 2")) ∧
    ∀ stop, duckyRun ⟨⟨true, true, true⟩, stop⟩ (ascii "  ENTER\nREPEAT 2") =
      duckyRun ⟨⟨true, true, true⟩, stop⟩ (ascii "ENTER\nREPEAT 2") := by
  have plain : splitLines 0x0A (ascii "ENTER\nREPEAT 2") = [ascii "ENTER", ascii "REPEAT 2"] := by decide +kernel
  have moved : splitLines 0x0A (ascii "  ENTER\nREPEAT 2") = [ascii "  ENTER", ascii "REPEAT 2"] := by decide +kernel
  have indented : Indented (splitLines 0x0A (ascii "ENTER\nREPEAT 2"))
      (splitLines 0x0A (ascii "  ENTER\nREPEAT 2")) := by
    rw [plain, moved]
    refine .cons ⟨⟨ascii "  ", by decide +kernel, by decide +kernel⟩, by decide +kernel⟩
      (.cons ⟨⟨[], by simp, rfl⟩, ?_⟩ .nil)
    decide +kernel
  refine ⟨indented, (duckyRun_indented_iff indented).mpr ?_⟩
  rw [plain, moved]
  exact fun _ => ⟨fun _ word => absurd word (by decide +kernel), fun _ => ⟨fun _ _ => .inl rfl, trivial⟩⟩

/-- An indented `REPEAT` is an error. -/
theorem indented_repeat : ¬∀ (can : Can) (stop : Nat → List Event → Bool) (script script' : Str),
    Indented (splitLines 0x0A script) (splitLines 0x0A script') →
      duckyRun ⟨can, stop⟩ script' = duckyRun ⟨can, stop⟩ script := by
  intro all
  have plain : splitLines 0x0A (ascii "ENTER\nREPEAT 2") = [ascii "ENTER", ascii "REPEAT 2"] := by decide +kernel
  have moved : splitLines 0x0A (ascii "ENTER\n  REPEAT 2") = [ascii "ENTER", ascii "  REPEAT 2"] := by decide +kernel
  have same := all ⟨true, true, true⟩ (fun _ _ => false) (ascii "ENTER\nREPEAT 2") (ascii "ENTER\n  REPEAT 2") ?_
  · exact absurd same (by decide +kernel)
  · rw [plain, moved]
    refine .cons ⟨⟨[], by simp, rfl⟩, by decide +kernel⟩ (.cons ⟨⟨ascii "  ", ?_, by decide +kernel⟩, ?_⟩ .nil)
    · decide +kernel
    · decide +kernel

end RPCortex.Ducky
