import Mathlib

/-! The command-line scanners of `cmdline.cpp`.  A line is the list of its bytes before the NUL.  The
operator scanners pass over the line with `quote_edge`; `cmdline_split_args` cuts it into words and
has its own idea of where a quote opens.  Beside the words the splitter here also reports, for every
byte that it passes, whether it took it as a quote character, as text inside quotes or as neither. -/

namespace RPCortex.Shell

abbrev blank : UInt8 := 0x20

abbrev semicolon : UInt8 := 0x3B

abbrev ampersand : UInt8 := 0x26

abbrev bar : UInt8 := 0x7C

abbrev greater : UInt8 := 0x3E

/-- The two quote characters. -/
def isQuote (c : UInt8) : Bool := c == 0x22 || c == 0x27

/-- The characters behind which `word_start` lets a word begin, besides a space. -/
def isOperator (c : UInt8) : Bool := c == semicolon || c == ampersand || c == bar || c == greater

/-- How a byte of a line is taken: as one of the quote characters that open or close a quotation,
as text inside quotes, or as neither. -/
inductive Mark
  | edge
  | quoted
  | plain
  deriving DecidableEq, Repr

/-! ### The quote rule of the operator scanners -/

/-- `word_start`, given the byte in front, if there is one. -/
def wordStart : Option UInt8 → Bool
  | none => true
  | some c => c == blank || isOperator c

/-- `quote_edge`: whether `c` opens or closes a quotation, and the quote character that the scan is
inside of afterwards. -/
def quoteEdge (prev : Option UInt8) (c : UInt8) : Option UInt8 → Bool × Option UInt8
  | some k => if c = k then (true, none) else (false, some k)
  | none => if isQuote c && wordStart prev then (true, some c) else (false, none)

/-- How the operator scanners take the bytes of a line. -/
def scanMarks (prev q : Option UInt8) : List UInt8 → List Mark
  | [] => []
  | c :: rest =>
    match quoteEdge prev c q with
    | (true, q) => .edge :: scanMarks (some c) q rest
    | (false, some k) => .quoted :: scanMarks (some c) (some k) rest
    | (false, none) => .plain :: scanMarks (some c) none rest

/-! ### The operator scanners -/

/-- `Connector`. -/
inductive Connector
  | first
  | seq
  | and
  | or
  deriving DecidableEq, Repr

/-- The loop of `cmdline_next_connector` at position `i`. -/
def nextConnectorFrom (i : Nat) (prev q : Option UInt8) :
    List UInt8 → Option (Nat × Connector × Nat)
  | [] => none
  | c :: rest =>
    match quoteEdge prev c q with
    | (true, q) => nextConnectorFrom (i + 1) (some c) q rest
    | (false, some k) => nextConnectorFrom (i + 1) (some c) (some k) rest
    | (false, none) =>
      if c = ampersand ∧ rest.head? = some ampersand then some (i, .and, 2)
      else if c = bar ∧ rest.head? = some bar then some (i, .or, 2)
      else if c = semicolon then some (i, .seq, 1)
      else nextConnectorFrom (i + 1) (some c) none rest

/-- `cmdline_next_connector`: the position, the kind and the length of the next connector. -/
def cmdlineNextConnector (s : List UInt8) : Option (Nat × Connector × Nat) :=
  nextConnectorFrom 0 none none s

/-- The loop of `cmdline_next_pipe` at position `i`. -/
def nextPipeFrom (i : Nat) (prev q : Option UInt8) : List UInt8 → Option Nat
  | [] => none
  | c :: rest =>
    match quoteEdge prev c q with
    | (true, q) => nextPipeFrom (i + 1) (some c) q rest
    | (false, some k) => nextPipeFrom (i + 1) (some c) (some k) rest
    | (false, none) =>
      if c = bar then
        match rest with
        | d :: rest => if d = bar then nextPipeFrom (i + 2) (some d) none rest else some i
        | [] => some i
      else nextPipeFrom (i + 1) (some c) none rest

/-- `cmdline_next_pipe`. -/
def cmdlineNextPipe (s : List UInt8) : Option Nat := nextPipeFrom 0 none none s

/-- The loop of `cmdline_split_redirect` at position `i`: the position and the length of the last
redirection, starting from the one found so far. -/
def lastRedirectFrom (i : Nat) (prev q : Option UInt8) (last : Option (Nat × Nat)) :
    List UInt8 → Option (Nat × Nat)
  | [] => last
  | c :: rest =>
    match quoteEdge prev c q with
    | (true, q) => lastRedirectFrom (i + 1) (some c) q last rest
    | (false, some k) => lastRedirectFrom (i + 1) (some c) (some k) last rest
    | (false, none) =>
      if c = greater then
        match rest with
        | d :: rest =>
          if d = greater then lastRedirectFrom (i + 2) (some d) none (some (i, 2)) rest
          else lastRedirectFrom (i + 1) (some c) none (some (i, 1)) (d :: rest)
        | [] => some (i, 1)
      else lastRedirectFrom (i + 1) (some c) none last rest

/-- The position and the length of the redirection that `cmdline_split_redirect` acts on. -/
def lastRedirect (seg : List UInt8) : Option (Nat × Nat) := lastRedirectFrom 0 none none none seg

/-- `cmdline_trim`. -/
def cmdlineTrim (s : List UInt8) : List UInt8 :=
  (((s.dropWhile (· == blank)).reverse).dropWhile (· == blank)).reverse

/-- A pair of quotes around the whole file name is taken off. -/
def unquoteName (file : List UInt8) : List UInt8 :=
  match file with
  | c :: rest =>
    if 2 ≤ file.length ∧ isQuote c = true ∧ rest.getLast? = some c then rest.dropLast else file
  | [] => []

/-- A segment split at a redirection: the file name with `*append`, unless there is none, and the
segment in front of it. -/
def splitRedirectAt (seg : List UInt8) : Option (Nat × Nat) → Option (List UInt8 × Bool) × List UInt8
  | none => (none, seg)
  | some (last, len) =>
    let file := unquoteName (cmdlineTrim (seg.drop (last + len)))
    (if file = [] then none else some (file, len == 2), seg.take last)

/-- `cmdline_split_redirect`. -/
def cmdlineSplitRedirect (seg : List UInt8) : Option (List UInt8 × Bool) × List UInt8 :=
  splitRedirectAt seg (lastRedirect seg)

/-! ### The splitter -/

/-- The inner loop of `cmdline_split_args`: the bytes of a word with how they are taken, and the rest
of the line from the space that ends the word. -/
def splitWord (q : Option UInt8) : List UInt8 → List (UInt8 × Mark) × List UInt8
  | [] => ([], [])
  | c :: rest =>
    match q with
    | none =>
      if c = blank then ([], c :: rest)
      else
        let (word, after) := splitWord none rest
        ((c, .plain) :: word, after)
    | some k =>
      if c = k then
        let (word, after) := splitWord none rest
        ((c, .edge) :: word, after)
      else
        let (word, after) := splitWord (some k) rest
        ((c, .quoted) :: word, after)

/-- A word that starts with `c`; only there does the splitter let a quote open. -/
def splitToken (c : UInt8) (rest : List UInt8) : List (UInt8 × Mark) × List UInt8 :=
  if isQuote c then
    let (word, after) := splitWord (some c) rest
    ((c, .edge) :: word, after)
  else splitWord none (c :: rest)

/-- The outer loop of `cmdline_split_args` with room for `max` words: the words, and how the bytes
that the loop passed are taken. -/
def splitFrom : Nat → List UInt8 → List (List UInt8) × List Mark
  | 0, _ => ([], [])
  | max + 1, line =>
    let gap := (line.takeWhile (· == blank)).map fun _ => Mark.plain
    match line.dropWhile (· == blank) with
    | [] => ([], gap)
    | c :: rest =>
      let (word, after) := splitToken c rest
      let (argv, marks) := splitFrom max after.tail
      ((word.filter (·.2 ≠ .edge)).map Prod.fst :: argv,
        gap ++ word.map Prod.snd ++ (after.take 1).map (fun _ => .plain) ++ marks)

/-- `cmdline_split_args`, with room for `max` words. -/
def cmdlineSplitArgs (max : Nat) (line : List UInt8) : List (List UInt8) := (splitFrom max line).1

/-- How the splitter takes the bytes of a line that it reads to the end. -/
def splitMarks (line : List UInt8) : List Mark := (splitFrom line.length line).2

end RPCortex.Shell
