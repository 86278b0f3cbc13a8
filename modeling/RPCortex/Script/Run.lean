import RPCortex.Lib.Bytes
import RPCortex.Lib.CNumber

/-! The texts of an rps script, `rps.cpp`: lines, words, variables and what a line expands to.  A
string is a list of bytes without its NUL. -/

namespace RPCortex.Script

open Lib

abbrev Str : Type := List UInt8

/-- `RPS_VARS`. -/
def rpsVars : Nat := 16

/-- `RPS_NAME_MAX`. -/
def rpsNameMax : Nat := 24

/-- `RPS_VAL_MAX`. -/
def rpsValMax : Nat := 128

/-- `RPS_LINE_MAX`. -/
def rpsLineMax : Nat := 256

/-- `RPS_DEPTH`. -/
def rpsDepth : Nat := 8

abbrev newline : UInt8 := 0x0A

abbrev dollar : UInt8 := 0x24

/-! ### Variables -/

/-- `RpsVars`: names and values in the order in which they were set first. -/
abbrev Vars : Type := List (Str × Str)

/-- `var_get`. -/
def varGet (v : Vars) (name : Str) : Option Str := (v.find? fun p => p.1 = name).map Prod.snd

/-- `var_set`. -/
def varSet (v : Vars) (name val : Str) : Option Vars :=
  if v.any fun p => p.1 = name then
    some (v.map fun p => if p.1 = name then (p.1, val.take (rpsValMax - 1)) else p)
  else if rpsVars ≤ v.length then none
  else some (v ++ [(name.take (rpsNameMax - 1), val.take (rpsValMax - 1))])

/-- `name_ch`. -/
def nameCh (c : UInt8) : Bool :=
  (0x61 ≤ c && c ≤ 0x7A) || (0x41 ≤ c && c ≤ 0x5A) || (0x30 ≤ c && c ≤ 0x39) || c = 0x5F

/-- The loop of `rps_expand` into a buffer with room for `room` more characters. -/
def expandFrom (v : Vars) : (fuel : Nat) → Str → (room : Nat) → Str
  | 0, _, _ => []
  | _ + 1, [], _ => []
  | _ + 1, _ :: _, 0 => []
  | fuel + 1, c :: rest, room + 1 =>
    if c ≠ dollar then c :: expandFrom v fuel rest room
    else if rest.head? = some dollar then dollar :: expandFrom v fuel rest.tail room
    else
      let name := rest.takeWhile nameCh
      if name = [] then dollar :: expandFrom v fuel rest room
      else
        let val := ((varGet v name).getD []).take (room + 1)
        val ++ expandFrom v fuel (rest.dropWhile nameCh) (room + 1 - val.length)

/-- `rps_expand` into a buffer of `cap` bytes; every pass takes a character at least. -/
def rpsExpand (v : Vars) (s : Str) (cap : Nat) : Str := expandFrom v s.length s (cap - 1)

/-! ### Words -/

def isWs (c : UInt8) : Bool := c = 0x20 || c = 0x09

def isQuote (c : UInt8) : Bool := c = 0x22 || c = 0x27

/-- `skip_ws`. -/
def skipWs (s : Str) : Str := s.dropWhile isWs

/-- `word`, from a place behind white space. -/
def wordAt (s : Str) (cap : Nat) : Str × Str :=
  match s with
  | [] => ([], [])
  | q :: rest =>
    if isQuote q then ((rest.takeWhile (· ≠ q)).take (cap - 1), (rest.dropWhile (· ≠ q)).drop 1)
    else (((q :: rest).takeWhile (!isWs ·)).take (cap - 1), (q :: rest).dropWhile (!isWs ·))

/-- `word`: the next word, as far as a buffer of `cap` bytes holds it, and the rest. -/
def word (s : Str) (cap : Nat) : Str × Str := wordAt (skipWs s) cap

/-- `is_num`: the value of a string that is a number, with a `long` of 32 bits. -/
def isNum (s : Str) : Option Int :=
  let body := (signOf (s.dropWhile isSpace)).2
  if (digits 10 body).length = body.length then strtoint (2 ^ 31) 10 s else none

/-- `strcmp`. -/
def strcmp : Str → Str → Int
  | [], [] => 0
  | [], _ :: _ => -1
  | _ :: _, [] => 1
  | a :: s, b :: t => if a = b then strcmp s t else if a < b then -1 else 1

/-- `compare`. -/
def compare (a b : Str) : Int :=
  match isNum a, isNum b with
  | some x, some y => if x < y then -1 else if y < x then 1 else 0
  | _, _ => strcmp a b

/-- `strstr`. -/
def contains (s part : Str) : Bool := s.tails.any fun t => part.isPrefixOf t

/-- The digits of a number. -/
def decimal (n : Int) : Str :=
  (if n < 0 then [0x2D] else []) ++ ascii (toString n.natAbs)

/-- A sum of two `long`s. -/
def addLong (a b : Int) : Int := (a + b + 2 ^ 31) % 2 ^ 32 - 2 ^ 31

/-! ### Lines -/

/-- The lines of a text; what stands behind the last line end is one too. -/
def textLines : Str → List Str
  | [] => [[]]
  | c :: rest =>
    if c = newline then [] :: textLines rest
    else match textLines rest with
      | [] => [[c]]
      | line :: lines => (c :: line) :: lines

/-- The lines that `index_lines` has room for. -/
def lineLimit : Nat := 512

/-- `index_lines`. -/
def indexLines (text : Option Str) : List Str :=
  match text with
  | none => []
  | some text => (textLines text).take lineLimit

/-- A line without the spaces and carriage returns at its end. -/
def strip (line : Str) : Str := (line.reverse.dropWhile fun c => c = 0x0D || c = 0x20).reverse

/-- `get_line` of a line, into a buffer of `RPS_LINE_MAX` bytes. -/
def getLine (line : Str) : Str := strip (line.take (rpsLineMax - 1))

end RPCortex.Script

/-! `rps_run`: the lines of a script are run one after the other with a stack of open blocks.  What
the host answers is the outside's, and may depend on everything that it was asked before. -/

namespace RPCortex.Script

open Lib

/-- `RpsHost`; `ω` is what the host remembers.  A call that is not there answers no and nothing. -/
structure Host (ω : Type) where
  /-- Whether a command succeeded, and its output when that is captured. -/
  run : ω → (line : Str) → (capture : Bool) → (Bool × Str) × ω
  prompt : ω → (msg : Str) → Str × ω
  exists_ : ω → (path : Str) → Bool × ω
  poll : ω → Bool × ω

/-- The variables and the host. -/
structure Store (ω : Type) where
  vars : Vars
  world : ω
  deriving DecidableEq

/-- The errors of a script. -/
inductive Err
  | stopped
  | setNeedsName
  | tooManyVariables
  | tooMany
  | nestedTooDeep
  | ifWithoutEnd
  | elseWithoutIf
  | whileWithoutEnd
  | endWithout
  | outsideWhile (w : Str)
  | unclosed
  deriving DecidableEq

/-- The text of an error. -/
def Err.text : Err → Str
  | .stopped => ascii "stopped"
  | .setNeedsName => ascii "set needs a name"
  | .tooManyVariables => ascii "too many variables (16)"
  | .tooMany => ascii "too many variables"
  | .nestedTooDeep => ascii "nested too deep (8)"
  | .ifWithoutEnd => ascii "if without end"
  | .elseWithoutIf => ascii "else without if"
  | .whileWithoutEnd => ascii "while without end"
  | .endWithout => ascii "end without if or while"
  | .outsideWhile w => w ++ ascii " outside a while"
  | .unclosed => ascii "unclosed if or while"

section Statements

variable {ω : Type} (host : Host ω)

/-! ### Conditions -/

/-- The comparison that an operator asks for. -/
def comparison (op : Str) : Option (Int → Bool) :=
  if op = ascii "eq" then some fun c => c = 0
  else if op = ascii "ne" then some fun c => c ≠ 0
  else if op = ascii "gt" then some fun c => 0 < c
  else if op = ascii "lt" then some fun c => c < 0
  else if op = ascii "ge" then some fun c => 0 ≤ c
  else if op = ascii "le" then some fun c => c ≤ 0
  else none

/-- `eval_cond`.  Each `not` shortens the expression, so its length is enough fuel. -/
def evalFrom : (fuel : Nat) → (expr : Str) → ω → Bool × ω
  | 0, _, s => (false, s)
  | fuel + 1, expr, s =>
    let op := word expr 16
    let a := word op.2 rpsValMax
    if op.1 = ascii "not" then
      let inner := evalFrom fuel op.2 s
      (!inner.1, inner.2)
    else match comparison op.1 with
    | some holds => (holds (compare a.1 (word a.2 rpsValMax).1), s)
    | none =>
      if op.1 = ascii "contains" then (contains a.1 (word a.2 rpsValMax).1, s)
      else if op.1 = ascii "exists" then host.exists_ s a.1
      else if op.1 = ascii "empty" then (a.1 = [], s)
      else
        let r := host.run s expr false
        (r.1.1, r.2)

/-- `eval_cond`. -/
def evalCond (expr : Str) (s : ω) : Bool × ω := evalFrom host (expr.length + 1) expr s

/-! ### Statements outside blocks -/

/-- How a statement ends. -/
inductive Effect (ω : Type)
  | next (s : Store ω)
  | stop
  | fail (e : Err)
  | leave (w : Str)

/-- A string without the line ends at its end. -/
def dropLineEnds (s : Str) : Str := (s.reverse.dropWhile fun c => c = newline || c = 0x0D).reverse

/-- A variable is set when there is room for it. -/
def setOrKeep (v : Vars) (name val : Str) : Vars := (varSet v name val).getD v

/-- The statements of `rps_run` that are not about blocks, and `break` and `continue`, which it
leaves to its caller.  `line` is the line behind its substitutions, `w` its first word. -/
def statement (line w rest : Str) (s : Store ω) : Effect ω :=
  let name := word rest rpsNameMax
  if w = ascii "set" then
    let val := (skipWs name.2).take (rpsValMax - 1)
    let val := match val with
      | q :: _ => if isQuote q then (word (skipWs name.2) rpsValMax).1 else val
      | [] => val
    if name.1 = [] then .fail .setNeedsName
    else match varSet s.vars name.1 val with
    | none => .fail .tooManyVariables
    | some vars => .next { s with vars }
  else if w = ascii "inc" ∨ w = ascii "dec" then
    let amt := (word name.2 16).1
    let step := if amt = [] then 1 else (isNum amt).getD 1
    let step := if w = ascii "dec" then -step else step
    let v := ((varGet s.vars name.1).bind isNum).getD 0
    match varSet s.vars name.1 (decimal (addLong v step)) with
    | none => .fail .tooMany
    | some vars => .next { s with vars }
  else if w = ascii "prompt" then
    let r := host.prompt s.world (skipWs name.2)
    .next ⟨setOrKeep s.vars name.1 r.1, r.2⟩
  else if w = ascii "capture" then
    let r := host.run s.world (skipWs name.2) true
    .next ⟨setOrKeep s.vars name.1 (dropLineEnds (r.1.2.take (rpsValMax - 1))), r.2⟩
  else if w = ascii "stop" then .stop
  else if w = ascii "break" ∨ w = ascii "continue" then .leave w
  else .next { s with world := (host.run s.world line false).2 }

end Statements

/-! ### Blocks -/

/-- The words that open, part and close blocks. -/
inductive BlockWord
  | opensIf
  | opensWhile
  | parts
  | closes
  deriving DecidableEq

/-- The block word that a word is. -/
def blockWord (w : Str) : Option BlockWord :=
  if w = ascii "if" then some .opensIf
  else if w = ascii "while" then some .opensWhile
  else if w = ascii "else" then some .parts
  else if w = ascii "end" then some .closes
  else none

/-- The block word at the front of a line as it is written. -/
def lineWord (line : Str) : Option BlockWord := blockWord (word line 24).1

/-- `BlockKind`. -/
inductive BlockKind
  | if_
  | while_
  deriving DecidableEq

/-- `Block`; whether its branch was taken is not read. -/
structure OpenBlock where
  kind : BlockKind
  head : Nat
  deriving DecidableEq

/-- The loop of `find_close` over the lines from `i` on: the closing line and the `else`. -/
def closeFrom : (lines : List Str) → (i : Nat) → (depth : Int) → (else_ : Option Nat) →
    Option (Nat × Option Nat)
  | [], _, _, _ => none
  | line :: lines, i, depth, else_ =>
    match lineWord line with
    | some .opensIf | some .opensWhile => closeFrom lines (i + 1) (depth + 1) else_
    | some .closes =>
      if depth - 1 = 0 then some (i, else_) else closeFrom lines (i + 1) (depth - 1) else_
    | some .parts =>
      closeFrom lines (i + 1) depth (if depth = 1 ∧ else_ = none then some i else else_)
    | none => closeFrom lines (i + 1) depth else_

/-- `find_close`. -/
def findClose (lines : List Str) (from_ : Nat) : Option (Nat × Option Nat) :=
  closeFrom (lines.drop from_) from_ 0 none

/-- How a run ends. -/
inductive Ending
  | done
  | failed (e : Err) (line : Nat)
  deriving DecidableEq

/-- The error that ended a run. -/
def Ending.error : Ending → Option Err
  | .done => none
  | .failed e _ => some e

/-- The state of `rps_run` before a line. -/
structure State (ω : Type) where
  i : Nat
  stack : List OpenBlock
  executed : Nat
  store : Store ω

/-- An ended run with what it leaves. -/
structure Ended (ω : Type) where
  ending : Ending
  executed : Nat
  store : Store ω

/-- The blocks from the innermost open `while` on. -/
def unwind : List OpenBlock → List OpenBlock
  | [] => []
  | b :: stack => if b.kind = .while_ then b :: stack else unwind stack

section Machine

variable {ω : Type} (host : Host ω) (lines : List Str)

/-- `fail`, in the line that is run. -/
def fail (s : State ω) (e : Err) : State ω ⊕ Ended ω := .inr ⟨.failed e (s.i + 1), s.executed, s.store⟩

/-- The statements of `rps_run` about blocks; `rest` is the line behind its first word. -/
def blockStep (k : BlockWord) (rest : Str) (s : State ω) : State ω ⊕ Ended ω :=
  match k with
  | .opensIf =>
    if rpsDepth ≤ s.stack.length then fail s .nestedTooDeep
    else
      let cond := evalCond host (skipWs rest) s.store.world
      let s := { s with store := { s.store with world := cond.2 } }
      match findClose lines s.i with
      | none => fail s .ifWithoutEnd
      | some (end_, else_) =>
        if cond.1 then .inl { s with i := s.i + 1, stack := ⟨.if_, s.i⟩ :: s.stack }
        else match else_ with
          | some e => .inl { s with i := e + 1, stack := ⟨.if_, s.i⟩ :: s.stack }
          | none => .inl { s with i := end_ + 1 }
  | .parts =>
    match s.stack with
    | ⟨.if_, head⟩ :: stack =>
      match findClose lines head with
      | none => fail s .ifWithoutEnd
      | some (end_, _) => .inl { s with i := end_ + 1, stack }
    | _ => fail s .elseWithoutIf
  | .opensWhile =>
    if rpsDepth ≤ s.stack.length then fail s .nestedTooDeep
    else
      let cond := evalCond host (skipWs rest) s.store.world
      let s := { s with store := { s.store with world := cond.2 } }
      match findClose lines s.i with
      | none => fail s .whileWithoutEnd
      | some (end_, _) =>
        if cond.1 then .inl { s with i := s.i + 1, stack := ⟨.while_, s.i⟩ :: s.stack }
        else .inl { s with i := end_ + 1 }
  | .closes =>
    match s.stack with
    | [] => fail s .endWithout
    | ⟨.while_, head⟩ :: stack => .inl { s with i := head, stack }
    | ⟨.if_, _⟩ :: stack => .inl { s with i := s.i + 1, stack }

/-- One pass of the loop of `rps_run`. -/
def step (s : State ω) : State ω ⊕ Ended ω :=
  match lines[s.i]? with
  | none =>
    .inr ⟨if s.stack = [] then .done else .failed .unclosed (lines.length - 1 + 1), s.executed, s.store⟩
  | some raw =>
    let polled := host.poll s.store.world
    let s := { s with store := { s.store with world := polled.2 } }
    if polled.1 then fail s .stopped
    else
      let t := skipWs raw
      if t = [] ∨ t.head? = some 0x23 then .inl { s with i := s.i + 1 }
      else
        let line := rpsExpand s.store.vars t rpsLineMax
        let w := word line 32
        let s := { s with executed := s.executed + 1 }
        match blockWord w.1 with
        | some k => blockStep host lines k w.2 s
        | none =>
          match statement host line w.1 w.2 s.store with
          | .next store => .inl { s with i := s.i + 1, store }
          | .stop => .inr ⟨.done, s.executed, s.store⟩
          | .fail e => fail s e
          | .leave w =>
            match unwind s.stack with
            | [] => fail s (.outsideWhile w)
            | b :: stack =>
              match findClose lines b.head with
              | none => fail s .whileWithoutEnd
              | some (end_, _) =>
                .inl { s with i := if w = ascii "break" then end_ + 1 else b.head, stack }

/-- Some steps of a machine that ends with a result. -/
def runFor {σ ρ : Type} (step : σ → σ ⊕ ρ) : (fuel : Nat) → σ → σ ⊕ ρ
  | 0, s => .inl s
  | fuel + 1, s => match step s with
    | .inl s => runFor step fuel s
    | .inr r => .inr r

end Machine

/-- `rps_run` of a text, for some passes of its loop. -/
def rpsRun {ω : Type} (host : Host ω) (text : Option Str) (world : ω) (fuel : Nat) :
    State ω ⊕ Ended ω :=
  runFor (step host ((indexLines text).map getLine)) fuel ⟨0, [], 0, ⟨[], world⟩⟩

end RPCortex.Script
