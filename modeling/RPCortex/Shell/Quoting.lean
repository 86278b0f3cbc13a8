import RPCortex.Shell.Cmdline

/-! How far the operator scanners and the splitter agree on quotes.  The splitter is in one of three
positions: between words, in a word outside quotes, or inside a quotation.  In step with it the
scanners take every byte the same way until a quote character stands directly behind an operator
character in the middle of a word: there the scanners open a quotation and the splitter does not. -/

namespace RPCortex.Shell

/-! ### The splitter as a pass over the line -/

/-- Where the splitter stands. -/
inductive SplitState
  | between
  | inWord
  | inside (k : UInt8)
  deriving DecidableEq

namespace SplitState

/-- Where the splitter stands after a byte. -/
def next : SplitState → UInt8 → SplitState
  | between, c => if c = blank then between else if isQuote c then inside c else inWord
  | inWord, c => if c = blank then between else inWord
  | inside k, c => if c = k then inWord else inside k

/-- How the splitter takes a byte. -/
def mark : SplitState → UInt8 → Mark
  | between, c => if isQuote c then .edge else .plain
  | inWord, _ => .plain
  | inside k, c => if c = k then .edge else .quoted

/-- How the splitter takes the bytes of a line. -/
def marks : SplitState → List UInt8 → List Mark
  | _, [] => []
  | st, c :: rest => st.mark c :: (st.next c).marks rest

/-- The position in a word whose open quote character is `q`. -/
def ofQuote : Option UInt8 → SplitState
  | none => inWord
  | some k => inside k

end SplitState

open SplitState

theorem isQuote_blank : isQuote blank = false := by decide

theorem isOperator_of_isQuote {c : UInt8} (h : isQuote c = true) : isOperator c = false := by
  simp only [isQuote, Bool.or_eq_true, beq_iff_eq] at h
  rcases h with rfl | rfl <;> decide

example (line : List UInt8) : (splitWord none (blank :: line)).1 = [] := by simp [splitWord]

/-- The inner loop takes its bytes as the pass does and leaves the rest to it. -/
theorem marks_splitWord (q : Option UInt8) (line : List UInt8) :
    (ofQuote q).marks line =
      (splitWord q line).1.map Prod.snd ++ inWord.marks (splitWord q line).2 := by
  induction line generalizing q with
  | nil => rfl
  | cons c rest ih =>
    cases q with
    | none =>
      by_cases hc : c = blank
      · simp [splitWord, hc, ofQuote]
      · have := ih none
        simp only [ofQuote] at this
        simp [splitWord, hc, ofQuote, marks, next, mark, this]
    | some k =>
      by_cases hk : c = k
      · have := ih none
        simp only [ofQuote] at this
        simp [splitWord, hk, ofQuote, marks, next, mark, this]
      · have := ih (some k)
        simp only [ofQuote] at this
        simp [splitWord, hk, ofQuote, marks, next, mark, this]

/-- A word ends at a space or with the line. -/
theorem splitWord_rest (q : Option UInt8) (line : List UInt8) :
    (splitWord q line).2 = [] ∨ ∃ after, (splitWord q line).2 = blank :: after := by
  induction line generalizing q with
  | nil => exact .inl rfl
  | cons c rest ih =>
    cases q with
    | none =>
      by_cases hc : c = blank
      · exact .inr ⟨rest, by simp [splitWord, hc]⟩
      · simpa [splitWord, hc] using ih none
    | some k =>
      by_cases hk : c = k
      · simpa [splitWord, hk] using ih none
      · simpa [splitWord, hk] using ih (some k)

theorem length_splitWord_rest (q : Option UInt8) (line : List UInt8) :
    (splitWord q line).2.length ≤ line.length := by
  induction line generalizing q with
  | nil => simp [splitWord]
  | cons c rest ih =>
    cases q with
    | none =>
      by_cases hc : c = blank
      · simp [splitWord, hc]
      · have := ih none
        simp [splitWord, hc]
        omega
    | some k =>
      by_cases hk : c = k
      · have := ih none
        simp [splitWord, hk]
        omega
      · have := ih (some k)
        simp [splitWord, hk]
        omega

theorem marks_splitToken {c : UInt8} (hc : c ≠ blank) (rest : List UInt8) :
    between.marks (c :: rest) =
      (splitToken c rest).1.map Prod.snd ++ inWord.marks (splitToken c rest).2 := by
  by_cases hq : isQuote c = true
  · have := marks_splitWord (some c) rest
    simp only [ofQuote] at this
    simp [splitToken, hq, marks, mark, next, hc, this]
  · have := marks_splitWord none (c :: rest)
    simp only [ofQuote] at this
    simp only [splitToken, hq]
    rw [if_neg (by simp), ← this]
    simp [marks, mark, next, hc, hq]

theorem splitToken_rest (c : UInt8) (rest : List UInt8) :
    (splitToken c rest).2 = [] ∨ ∃ after, (splitToken c rest).2 = blank :: after := by
  unfold splitToken
  split
  · exact splitWord_rest (some c) rest
  · exact splitWord_rest none (c :: rest)

theorem length_splitToken_rest (c : UInt8) (rest : List UInt8) :
    (splitToken c rest).2.length ≤ rest.length + 1 := by
  unfold splitToken
  split
  · exact (length_splitWord_rest (some c) rest).trans (Nat.le_succ _)
  · exact length_splitWord_rest none (c :: rest)

/-- The bytes behind a word, where the space that ends it is passed with it. -/
theorem marks_after {after : List UInt8} (h : after = [] ∨ ∃ r, after = blank :: r) :
    inWord.marks after = (after.take 1).map (fun _ => .plain) ++ between.marks after.tail := by
  rcases h with rfl | ⟨r, rfl⟩
  · rfl
  · simp [marks, mark, next]

theorem marks_gap (line : List UInt8) :
    between.marks line = ((line.takeWhile (· == blank)).map fun _ => Mark.plain) ++
      between.marks (line.dropWhile (· == blank)) := by
  induction line with
  | nil => rfl
  | cons c rest ih =>
    by_cases hc : c = blank
    · simp [marks, mark, next, hc, isQuote_blank, ih]
    · simp [hc]

/-- With room for every word the splitter passes the whole line. -/
theorem splitFrom_marks {n : Nat} {line : List UInt8} (room : line.length ≤ n) :
    (splitFrom n line).2 = between.marks line := by
  induction n generalizing line with
  | zero =>
    obtain rfl := List.length_eq_zero_iff.mp (Nat.le_zero.mp room)
    rfl
  | succ n ih =>
    rw [marks_gap line]
    have shorter := (List.dropWhile_sublist (· == blank) (l := line)).length_le
    simp only [splitFrom]
    cases hd : line.dropWhile (· == blank) with
    | nil => simp [marks]
    | cons c rest =>
      have hc : c ≠ blank := by
        have := List.head_dropWhile_not (· == blank) (l := line) (by rw [hd]; simp)
        simpa [hd] using this
      have len := length_splitToken_rest c rest
      rw [hd] at shorter
      simp only [List.length_cons] at shorter
      have fits : (splitToken c rest).2.tail.length ≤ n := by
        rw [List.length_tail]
        omega
      rw [marks_splitToken hc, marks_after (splitToken_rest c rest), ← ih fits]
      simp only [List.append_assoc]

theorem splitMarks_eq (line : List UInt8) : splitMarks line = between.marks line :=
  splitFrom_marks (Nat.le_refl _)

/-! ### Agreement on every byte -/

/-- Whether a quote character stands directly behind an operator character in a word, outside
quotes: the splitter takes both as text. -/
def quoteBehindOperator : SplitState → Option UInt8 → List UInt8 → Bool
  | _, _, [] => false
  | st, prev, c :: rest =>
    (decide (st = .inWord) && prev.any isOperator && isQuote c) ||
      quoteBehindOperator (st.next c) (some c) rest

/-- The scanners stand where the splitter does. -/
inductive InStep : SplitState → Option UInt8 → Option UInt8 → Prop
  | start : InStep .between none none
  | between : InStep .between (some blank) none
  | inWord {p : UInt8} (h : p ≠ blank) : InStep .inWord (some p) none
  | inside {p : Option UInt8} {k : UInt8} (h : isQuote k = true) : InStep (.inside k) p (some k)

/-- Between words both sides take a byte the same way. -/
theorem inStep_between {prev : Option UInt8} (c : UInt8) (start : wordStart prev = true) :
    ∃ q, quoteEdge prev c none = (isQuote c, q) ∧ InStep (SplitState.between.next c) (some c) q ∧
      q.isSome = isQuote c := by
  by_cases hq : isQuote c = true
  · have hc : c ≠ blank := by
      rintro rfl
      rw [isQuote_blank] at hq
      cases hq
    refine ⟨some c, by simp [quoteEdge, hq, start], ?_, by simp [hq]⟩
    simp only [next, hc, hq, if_false, if_true]
    exact .inside hq
  · refine ⟨none, by simp [quoteEdge, hq], ?_, by simpa using hq⟩
    by_cases hc : c = blank
    · simp only [next, hc, if_true]
      exact .between
    · simp only [next, hc, hq, if_false]
      exact .inWord hc

/-- The readings of a line are equal exactly when no quote character stands behind an operator
character in a word. -/
theorem marks_eq_iff {st : SplitState} {prev q : Option UInt8} (step : InStep st prev q)
    (line : List UInt8) :
    scanMarks prev q line = st.marks line ↔ quoteBehindOperator st prev line = false := by
  induction line generalizing st prev q with
  | nil => simp [scanMarks, marks, quoteBehindOperator]
  | cons c rest ih =>
    have apart : ∀ {prev}, wordStart prev = true →
        (scanMarks prev none (c :: rest) = SplitState.between.marks (c :: rest) ↔
          quoteBehindOperator .between prev (c :: rest) = false) := by
      intro prev start
      obtain ⟨q, hq, step, hs⟩ := inStep_between c start
      simp only [scanMarks, hq, marks, mark, quoteBehindOperator]
      cases hc : isQuote c with
      | true => simpa using ih step
      | false =>
        rw [hc] at hs
        obtain rfl : q = none := by simpa using hs
        simpa using ih step
    cases step with
    | start => exact apart rfl
    | between => exact apart rfl
    | @inWord p hp =>
      have hb : (p == blank) = false := by simpa using hp
      have behind : InStep (SplitState.inWord.next c) (some c) none := by
        by_cases hc : c = blank
        · simp only [next, hc, if_true]
          exact .between
        · simp only [next, hc, if_false]
          exact .inWord hc
      cases hq : isQuote c && isOperator p with
      | true =>
        -- the scanners open a quotation here and the splitter does not
        rw [Bool.and_eq_true] at hq
        simp [scanMarks, quoteEdge, wordStart, hb, hq, marks, mark, quoteBehindOperator]
      | false =>
        have edge : quoteEdge (some p) c none = (false, none) := by
          simp [quoteEdge, wordStart, hb, hq]
        have late : (isOperator p && isQuote c) = false := by rw [Bool.and_comm, hq]
        simp [scanMarks, edge, marks, mark, quoteBehindOperator, late, ih behind]
    | @inside p k hk =>
      have hkb : k ≠ blank := by
        rintro rfl
        rw [isQuote_blank] at hk
        cases hk
      by_cases hc : c = k
      · subst hc
        have : InStep .inWord (some c) none := .inWord hkb
        simp [scanMarks, quoteEdge, marks, mark, next, quoteBehindOperator, ih this]
      · have : InStep (.inside k) (some c) (some k) := .inside hk
        simp [scanMarks, quoteEdge, hc, marks, mark, next, quoteBehindOperator, ih this]

/-! ### The operators that the scanners act on -/

/-- A line with how the operator scanners take its bytes. -/
def scanned (prev q : Option UInt8) (s : List UInt8) : List (UInt8 × Mark) :=
  s.zip (scanMarks prev q s)

/-- The first connector that stands outside quotes, by the marks given. -/
def firstConnectorIn (i : Nat) : List (UInt8 × Mark) → Option (Nat × Connector × Nat)
  | [] => none
  | (c, m) :: rest =>
    if m ≠ .plain then firstConnectorIn (i + 1) rest
    else if c = ampersand ∧ (rest.head?.map Prod.fst) = some ampersand then some (i, .and, 2)
    else if c = bar ∧ (rest.head?.map Prod.fst) = some bar then some (i, .or, 2)
    else if c = semicolon then some (i, .seq, 1)
    else firstConnectorIn (i + 1) rest

/-- The first pipe that stands outside quotes, by the marks given. -/
def firstPipeIn (i : Nat) : List (UInt8 × Mark) → Option Nat
  | [] => none
  | (c, m) :: rest =>
    if m ≠ .plain then firstPipeIn (i + 1) rest
    else if c = bar then
      match rest with
      | (d, _) :: rest => if d = bar then firstPipeIn (i + 2) rest else some i
      | [] => some i
    else firstPipeIn (i + 1) rest

/-- The last redirection that stands outside quotes, by the marks given. -/
def lastRedirectIn (i : Nat) (last : Option (Nat × Nat)) :
    List (UInt8 × Mark) → Option (Nat × Nat)
  | [] => last
  | (c, m) :: rest =>
    if m ≠ .plain then lastRedirectIn (i + 1) last rest
    else if c = greater then
      match rest with
      | (d, m) :: rest =>
        if d = greater then lastRedirectIn (i + 2) (some (i, 2)) rest
        else lastRedirectIn (i + 1) (some (i, 1)) ((d, m) :: rest)
      | [] => some (i, 1)
    else lastRedirectIn (i + 1) last rest

theorem head_scanned (prev q : Option UInt8) (s : List UInt8) :
    (scanned prev q s).head?.map Prod.fst = s.head? := by
  cases s with
  | nil => rfl
  | cons c rest =>
    simp only [scanned, scanMarks]
    rcases quoteEdge prev c q with ⟨_ | _, _ | _⟩ <;> rfl

/-- An operator character outside quotes, behind another, stays outside them. -/
theorem quoteEdge_operator {c : UInt8} (h : isOperator c = true) (prev : Option UInt8) :
    quoteEdge prev c none = (false, none) := by
  have : isQuote c = false := by
    cases hq : isQuote c with
    | false => rfl
    | true => rw [isOperator_of_isQuote hq] at h; cases h
  simp [quoteEdge, this]

theorem nextConnectorFrom_eq (i : Nat) (prev q : Option UInt8) (s : List UInt8) :
    nextConnectorFrom i prev q s = firstConnectorIn i (scanned prev q s) := by
  induction s generalizing i prev q with
  | nil => rfl
  | cons c rest ih =>
    rw [scanned, nextConnectorFrom, scanMarks]
    rcases quoteEdge prev c q with ⟨_ | _, _ | k⟩
    · simp only [List.zip_cons_cons, firstConnectorIn]
      rw [if_neg (c := Mark.plain ≠ Mark.plain) (by simp), ← scanned, head_scanned, ih]
    · simpa [firstConnectorIn, scanned] using ih (i + 1) (some c) (some k)
    · simpa [firstConnectorIn, scanned] using ih (i + 1) (some c) none
    · simpa [firstConnectorIn, scanned] using ih (i + 1) (some c) (some k)

theorem nextPipeFrom_eq (i : Nat) (prev q : Option UInt8) (s : List UInt8) :
    nextPipeFrom i prev q s = firstPipeIn i (scanned prev q s) := by
  induction i, prev, q, s using nextPipeFrom.induct with
  | case1 i prev q => rfl
  | case2 i prev q c rest q' h ih =>
    rw [nextPipeFrom.eq_def, scanned, scanMarks, firstPipeIn.eq_def]
    simpa [h, scanned] using ih
  | case3 i prev q c rest k h ih =>
    rw [nextPipeFrom.eq_def, scanned, scanMarks, firstPipeIn.eq_def]
    simpa [h, scanned] using ih
  | case4 i prev q rest h ih =>
    -- `||` is passed over whole; its second character is outside quotes as well
    have second := quoteEdge_operator (c := bar) (by decide) (some bar)
    simpa [nextPipeFrom, scanned, scanMarks, h, second, firstPipeIn] using ih
  | case5 i prev q d rest hd h =>
    rw [nextPipeFrom.eq_def, scanned, scanMarks, firstPipeIn.eq_def]
    rcases hq : quoteEdge (some bar) d none with ⟨_ | _, _ | _⟩ <;> simp [h, hd, scanMarks, hq]
  | case6 i prev q h => simp [nextPipeFrom, scanned, scanMarks, h, firstPipeIn]
  | case7 i prev q c rest h hc ih =>
    rw [nextPipeFrom.eq_def, scanned, scanMarks, firstPipeIn.eq_def]
    simpa [h, hc, scanned] using ih

theorem lastRedirectFrom_eq (i : Nat) (prev q : Option UInt8) (last : Option (Nat × Nat))
    (s : List UInt8) :
    lastRedirectFrom i prev q last s = lastRedirectIn i last (scanned prev q s) := by
  induction i, prev, q, last, s using lastRedirectFrom.induct with
  | case1 i prev q last => rfl
  | case2 i prev q last c rest q' h ih =>
    rw [lastRedirectFrom.eq_def, scanned, scanMarks, lastRedirectIn.eq_def]
    simpa [h, scanned] using ih
  | case3 i prev q last c rest k h ih =>
    rw [lastRedirectFrom.eq_def, scanned, scanMarks, lastRedirectIn.eq_def]
    simpa [h, scanned] using ih
  | case4 i prev q last rest h ih =>
    have second := quoteEdge_operator (c := greater) (by decide) (some greater)
    simpa [lastRedirectFrom, scanned, scanMarks, h, second, lastRedirectIn] using ih
  | case5 i prev q last d rest hd h ih =>
    rw [lastRedirectFrom.eq_def, scanned, scanMarks, lastRedirectIn.eq_def]
    rw [scanned] at ih
    rcases hq : quoteEdge (some greater) d none with ⟨_ | _, _ | _⟩ <;>
      · simp only [scanMarks, hq, List.zip_cons_cons] at ih
        simpa [h, hd, scanMarks, hq] using ih
  | case6 i prev q last h => simp [lastRedirectFrom, scanned, scanMarks, h, lastRedirectIn]
  | case7 i prev q last c rest h hc ih =>
    rw [lastRedirectFrom.eq_def, scanned, scanMarks, lastRedirectIn.eq_def]
    simpa [h, hc, scanned] using ih

/-- Behind an operator character a scan goes on as at the start of a line. -/
theorem scanMarks_operator {c : UInt8} (h : isOperator c = true) (s : List UInt8) :
    scanMarks (some c) none s = scanMarks none none s := by
  cases s with
  | nil => rfl
  | cons d rest => simp [scanMarks, quoteEdge, wordStart, h]

/-- Behind a connector that was found the scan can start afresh. -/
theorem nextConnectorFrom_restart {i j len : Nat} {k : Connector} {prev q : Option UInt8}
    {s : List UInt8} (found : nextConnectorFrom i prev q s = some (j, k, len)) :
    ∃ m, j = i + m ∧
      (scanMarks prev q s).drop (m + len) = scanMarks none none (s.drop (m + len)) := by
  induction s generalizing i prev q with
  | nil => cases found
  | cons c rest ih =>
    have further : ∀ {q'}, nextConnectorFrom (i + 1) (some c) q' rest = some (j, k, len) →
        ∃ m, j = i + m ∧ (scanMarks (some c) q' rest).drop (m - 1 + len) =
          scanMarks none none (rest.drop (m - 1 + len)) ∧ 0 < m := by
      intro q' hq
      obtain ⟨m, hj, hm⟩ := ih hq
      exact ⟨m + 1, by omega, by simpa using hm, by omega⟩
    have shift : ∀ {m}, 0 < m → m + len = (m - 1 + len) + 1 := by omega
    rw [nextConnectorFrom] at found
    rw [scanMarks]
    rcases hq : quoteEdge prev c q with ⟨_ | _, _ | l⟩ <;> simp only [hq] at found
    · split at found
      · rename_i h
        obtain ⟨rfl, rfl, rfl⟩ := by simpa using found
        obtain ⟨rfl, h⟩ := h
        obtain ⟨rest, rfl⟩ : ∃ r, rest = ampersand :: r := by
          cases rest with
          | nil => cases h
          | cons d r => exact ⟨r, by rw [Option.some.inj h]⟩
        refine ⟨0, rfl, ?_⟩
        simp [scanMarks, quoteEdge_operator (c := ampersand) (by decide),
          scanMarks_operator (c := ampersand) (by decide)]
      · split at found
        · rename_i h
          obtain ⟨rfl, rfl, rfl⟩ := by simpa using found
          obtain ⟨rfl, h⟩ := h
          obtain ⟨rest, rfl⟩ : ∃ r, rest = bar :: r := by
            cases rest with
            | nil => cases h
            | cons d r => exact ⟨r, by rw [Option.some.inj h]⟩
          refine ⟨0, rfl, ?_⟩
          simp [scanMarks, quoteEdge_operator (c := bar) (by decide),
            scanMarks_operator (c := bar) (by decide)]
        · split at found
          · rename_i h
            obtain ⟨rfl, rfl, rfl⟩ := by simpa using found
            subst h
            exact ⟨0, rfl, by simp [scanMarks_operator (c := semicolon) (by decide)]⟩
          · obtain ⟨m, hj, hm, pos⟩ := further found
            exact ⟨m, hj, by rw [shift pos]; simpa using hm⟩
    all_goals
      obtain ⟨m, hj, hm, pos⟩ := further found
      exact ⟨m, hj, by rw [shift pos]; simpa using hm⟩

/-- Behind a pipe that was found the scan can start afresh. -/
theorem nextPipeFrom_restart {i j : Nat} {prev q : Option UInt8} {s : List UInt8}
    (found : nextPipeFrom i prev q s = some j) :
    ∃ m, j = i + m ∧ (scanMarks prev q s).drop (m + 1) = scanMarks none none (s.drop (m + 1)) := by
  induction i, prev, q, s using nextPipeFrom.induct with
  | case1 i prev q => cases found
  | case2 i prev q c rest q' h ih =>
    rw [nextPipeFrom.eq_def] at found
    obtain ⟨m, hj, hm⟩ := ih (by simpa [h] using found)
    exact ⟨m + 1, by omega, by simpa [scanMarks, h] using hm⟩
  | case3 i prev q c rest k h ih =>
    rw [nextPipeFrom.eq_def] at found
    obtain ⟨m, hj, hm⟩ := ih (by simpa [h] using found)
    exact ⟨m + 1, by omega, by simpa [scanMarks, h] using hm⟩
  | case4 i prev q rest h ih =>
    have second := quoteEdge_operator (c := bar) (by decide) (some bar)
    obtain ⟨m, hj, hm⟩ := ih (by simpa [nextPipeFrom, h] using found)
    exact ⟨m + 2, by omega, by simpa [scanMarks, h, second] using hm⟩
  | case5 i prev q d rest hd h =>
    obtain rfl : i = j := by simpa [nextPipeFrom, h, hd] using found
    refine ⟨0, rfl, ?_⟩
    rw [scanMarks, h]
    simpa using scanMarks_operator (c := bar) (by decide) (d :: rest)
  | case6 i prev q h =>
    obtain rfl : i = j := by simpa [nextPipeFrom, h] using found
    exact ⟨0, rfl, by simp [scanMarks, h]⟩
  | case7 i prev q c rest h hc ih =>
    rw [nextPipeFrom.eq_def] at found
    obtain ⟨m, hj, hm⟩ := ih (by simpa [h, hc] using found)
    exact ⟨m + 1, by omega, by simpa [scanMarks, h] using hm⟩

/-- Everything that a scanner finds on a line when it is called again behind each find. -/
def findAll {α κ : Type*} (find : List α → Option (Nat × κ × Nat)) :
    Nat → Nat → List α → List (Nat × κ)
  | 0, _, _ => []
  | fuel + 1, base, s =>
    match find s with
    | none => []
    | some (i, k, len) => (base + i, k) :: findAll find fuel (base + i + len) (s.drop (i + len))

/-- The parts of a line between the finds. -/
def parts {α κ : Type*} (find : List α → Option (Nat × κ × Nat)) : Nat → List α → List (List α)
  | 0, s => [s]
  | fuel + 1, s =>
    match find s with
    | none => [s]
    | some (i, _, len) => s.take i :: parts find fuel (s.drop (i + len))

/-- The connectors of a line, as `run_line` finds them. -/
def connectors (line : List UInt8) : List (Nat × Connector) :=
  findAll cmdlineNextConnector line.length 0 line

/-- The segments that `run_line` cuts a line into. -/
def segments (line : List UInt8) : List (List UInt8) := parts cmdlineNextConnector line.length line

/-- The pipes of a line, as `run_segment` finds them. -/
def pipes (line : List UInt8) : List (Nat × Unit) :=
  findAll (fun s => (cmdlineNextPipe s).map fun i => (i, (), 1)) line.length 0 line

/-- The connectors outside quotes, by the marks given. -/
def connectorsIn (line : List (UInt8 × Mark)) : List (Nat × Connector) :=
  findAll (firstConnectorIn 0) line.length 0 line

/-- The segments between them. -/
def segmentsIn (line : List (UInt8 × Mark)) : List (List (UInt8 × Mark)) :=
  parts (firstConnectorIn 0) line.length line

/-- The pipes outside quotes, by the marks given. -/
def pipesIn (line : List (UInt8 × Mark)) : List (Nat × Unit) :=
  findAll (fun s => (firstPipeIn 0 s).map fun i => (i, (), 1)) line.length 0 line

/-- A scanner that reads the marks only, and restarts behind its finds, finds what the marks of the
whole line say. -/
theorem findAll_scanned {κ : Type*} {find : List UInt8 → Option (Nat × κ × Nat)}
    {find' : List (UInt8 × Mark) → Option (Nat × κ × Nat)}
    (reads : ∀ s, find s = find' (scanned none none s))
    (restart : ∀ s i k len, find s = some (i, k, len) →
      (scanMarks none none s).drop (i + len) = scanMarks none none (s.drop (i + len)))
    (fuel base : Nat) (s : List UInt8) :
    findAll find fuel base s = findAll find' fuel base (scanned none none s) := by
  induction fuel generalizing base s with
  | zero => rfl
  | succ fuel ih =>
    rw [findAll, findAll, ← reads s]
    cases h : find s with
    | none => rfl
    | some found =>
      obtain ⟨i, k, len⟩ := found
      have rest : (scanned none none s).drop (i + len) = scanned none none (s.drop (i + len)) := by
        rw [scanned, scanned, ← restart s i k len h, List.zip, List.drop_zipWith]
      simp only [rest, ih]

theorem scanMarks_take (prev q : Option UInt8) (n : Nat) (s : List UInt8) :
    scanMarks prev q (s.take n) = (scanMarks prev q s).take n := by
  induction s generalizing prev q n with
  | nil => simp [scanMarks]
  | cons c rest ih =>
    cases n with
    | zero => rfl
    | succ n =>
      rw [List.take_succ_cons, scanMarks, scanMarks]
      rcases quoteEdge prev c q with ⟨_ | _, _ | _⟩ <;> simp [ih]

/-- The same for the parts between the finds. -/
theorem parts_scanned {κ : Type*} {find : List UInt8 → Option (Nat × κ × Nat)}
    {find' : List (UInt8 × Mark) → Option (Nat × κ × Nat)}
    (reads : ∀ s, find s = find' (scanned none none s))
    (restart : ∀ s i k len, find s = some (i, k, len) →
      (scanMarks none none s).drop (i + len) = scanMarks none none (s.drop (i + len)))
    (fuel : Nat) (s : List UInt8) :
    (parts find fuel s).map (scanned none none) = parts find' fuel (scanned none none s) := by
  induction fuel generalizing s with
  | zero => rfl
  | succ fuel ih =>
    rw [parts, parts, ← reads s]
    cases h : find s with
    | none => rfl
    | some found =>
      obtain ⟨i, k, len⟩ := found
      have front : scanned none none (s.take i) = (scanned none none s).take i := by
        rw [scanned, scanned, scanMarks_take, List.zip, List.take_zipWith]
      have rest : (scanned none none s).drop (i + len) = scanned none none (s.drop (i + len)) := by
        rw [scanned, scanned, ← restart s i k len h, List.zip, List.drop_zipWith]
      simp only [List.map_cons, front, rest, ih]

@[simp] theorem length_scanMarks (prev q : Option UInt8) (s : List UInt8) :
    (scanMarks prev q s).length = s.length := by
  induction s generalizing prev q with
  | nil => rfl
  | cons c rest ih =>
    rw [scanMarks]
    rcases quoteEdge prev c q with ⟨_ | _, _ | _⟩ <;> simp [ih]

theorem connectors_eq (line : List UInt8) :
    connectors line = connectorsIn (scanned none none line) := by
  have len : (scanned none none line).length = line.length := by simp [scanned]
  rw [connectors, connectorsIn, len]
  refine findAll_scanned (nextConnectorFrom_eq 0 none none) ?_ _ _ _
  intro s i k n found
  obtain ⟨m, rfl, hm⟩ := nextConnectorFrom_restart found
  simpa using hm

theorem segments_eq (line : List UInt8) :
    (segments line).map (scanned none none) = segmentsIn (scanned none none line) := by
  have len : (scanned none none line).length = line.length := by simp [scanned]
  rw [segments, segmentsIn, len]
  refine parts_scanned (nextConnectorFrom_eq 0 none none) ?_ _ _
  intro s i k n found
  obtain ⟨m, rfl, hm⟩ := nextConnectorFrom_restart found
  simpa using hm

theorem map_fst_scanned (s : List UInt8) : (scanned none none s).map Prod.fst = s :=
  List.map_fst_zip (length_scanMarks none none s).ge

theorem pipes_eq (line : List UInt8) : pipes line = pipesIn (scanned none none line) := by
  have len : (scanned none none line).length = line.length := by simp [scanned]
  rw [pipes, pipesIn, len]
  refine findAll_scanned (fun s => ?_) ?_ _ _ _
  · rw [cmdlineNextPipe, nextPipeFrom_eq]
  · intro s i k n found
    obtain ⟨j, hj, hfound⟩ := Option.map_eq_some_iff.mp found
    obtain ⟨rfl, rfl, rfl⟩ := by simpa using hfound
    obtain ⟨m, rfl, hm⟩ := nextPipeFrom_restart hj
    simpa using hm

/-! ### One reading -/

/-- `cmdline_split_redirect` of a segment, by the marks given. -/
def splitRedirectIn (seg : List (UInt8 × Mark)) : Option (List UInt8 × Bool) × List UInt8 :=
  splitRedirectAt (seg.map Prod.fst) (lastRedirectIn 0 none seg)

theorem cmdlineSplitRedirect_eq (seg : List UInt8) :
    cmdlineSplitRedirect seg = splitRedirectIn (scanned none none seg) := by
  rw [splitRedirectIn, map_fst_scanned, cmdlineSplitRedirect, lastRedirect, lastRedirectFrom_eq]

/-- The operator scanners and the splitter read the quotes of a line one way: they take every byte
alike, and the connectors, the pipes and the redirection of each segment that are acted on are those
that stand outside quotes for the splitter. -/
structure ReadOneWay (line : List UInt8) : Prop where
  quotes : scanMarks none none line = splitMarks line
  connectors : connectors line = connectorsIn (line.zip (splitMarks line))
  pipes : pipes line = pipesIn (line.zip (splitMarks line))
  redirects : (segments line).map cmdlineSplitRedirect =
    (segmentsIn (line.zip (splitMarks line))).map splitRedirectIn

/-- A line is read one way exactly when no quote character stands directly behind an operator
character in the middle of a word that the splitter has outside quotes. -/
theorem readOneWay_iff (line : List UInt8) :
    ReadOneWay line ↔ quoteBehindOperator .between none line = false := by
  have agree := marks_eq_iff .start line
  rw [← splitMarks_eq] at agree
  constructor
  · exact fun h => agree.mp h.quotes
  · intro h
    have quotes := agree.mpr h
    have same : scanned none none line = line.zip (splitMarks line) := by rw [scanned, quotes]
    exact {
      quotes
      connectors := by rw [connectors_eq, same]
      pipes := by rw [pipes_eq, same]
      redirects := by
        rw [← same, ← segments_eq, List.map_map]
        exact List.map_congr_left fun seg _ => cmdlineSplitRedirect_eq seg }

/-- `a&'b;c'`: the scanners see a quotation behind the `&` and pass over the `;` in it, which for
the splitter stands in the middle of a word outside quotes. -/
theorem not_all_lines_readOneWay : ¬∀ line, ReadOneWay line := by
  intro all
  have := (all [0x61, 0x26, 0x27, 0x62, 0x3B, 0x63, 0x27]).connectors
  revert this
  decide

end RPCortex.Shell
