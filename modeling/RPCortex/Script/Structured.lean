import RPCortex.Script.Run

/-! What a script means: a tree of blocks, run from its structure.  The machine below has no line
numbers; it goes through the tree with the blocks around it as a stack. -/

namespace RPCortex.Script

open Lib

/-- A list of statements with the lines that they are written on. -/
inductive Block
  | nil
  | line (text : Str) (rest : Block)
  | ifThen (head : Str) (body : Block) (close : Str) (rest : Block)
  | ifElse (head : Str) (body : Block) (part : Str) (other : Block) (close : Str) (rest : Block)
  | whileDo (head : Str) (body : Block) (close : Str) (rest : Block)

namespace Block

/-- The lines of the statements. -/
def lines : Block → List Str
  | nil => []
  | line text rest => text :: rest.lines
  | ifThen head body close rest => head :: (body.lines ++ close :: rest.lines)
  | ifElse head body part other close rest =>
    head :: (body.lines ++ part :: (other.lines ++ close :: rest.lines))
  | whileDo head body close rest => head :: (body.lines ++ close :: rest.lines)

/-- How deep the blocks are nested. -/
def depth : Block → Nat
  | nil => 0
  | line _ rest => rest.depth
  | ifThen _ body _ rest => max (body.depth + 1) rest.depth
  | ifElse _ body _ other _ rest => max (max body.depth other.depth + 1) rest.depth
  | whileDo _ body _ rest => max (body.depth + 1) rest.depth

/-- The lines of the blocks are written with their words, and no other line with one of these. -/
def Written : Block → Prop
  | nil => True
  | line text rest => lineWord text = none ∧ rest.Written
  | ifThen head body close rest =>
    lineWord head = some .opensIf ∧ body.Written ∧ lineWord close = some .closes ∧ rest.Written
  | ifElse head body part other close rest =>
    lineWord head = some .opensIf ∧ body.Written ∧ lineWord part = some .parts ∧ other.Written ∧
      lineWord close = some .closes ∧ rest.Written
  | whileDo head body close rest =>
    lineWord head = some .opensWhile ∧ body.Written ∧ lineWord close = some .closes ∧ rest.Written

end Block

/-- A block around the statements that are run, with what comes behind it. -/
inductive Frame
  | inIf (rest : Block)
  | inWhile (loop rest : Block)

/-- The statements that are left in the innermost block, and the blocks around them. -/
structure Config (ω : Type) where
  current : Block
  frames : List Frame
  store : Store ω

/-- How the run of a tree ends. -/
structure Outcome (ω : Type) where
  error : Option Err
  store : Store ω

/-- The innermost loop, with what comes behind it and the blocks around it. -/
def innermost : List Frame → Option (Block × Block × List Frame)
  | [] => none
  | .inIf _ :: frames => innermost frames
  | .inWhile loop rest :: frames => some (loop, rest, frames)

section Machine

variable {ω : Type} (host : Host ω)

/-- A line that is neither empty nor a comment, behind its substitutions. -/
def expanded (text : Str) (vars : Vars) : Option Str :=
  let t := skipWs text
  if t = [] ∨ t.head? = some 0x23 then none else some (rpsExpand vars t rpsLineMax)

/-- The condition on the head of a block. -/
def headCond (head : Str) (s : Store ω) : Bool × Store ω :=
  let line := rpsExpand s.vars (skipWs head) rpsLineMax
  let cond := evalCond host (skipWs (word line 32).2) s.world
  (cond.1, { s with world := cond.2 })

/-- A variable gets a value: one that is held gets it in its place, a new one stands behind the others while
there are fewer than `rpsVars`. -/
def assign (v : Vars) (name val : Str) : Option Vars :=
  if ∃ p ∈ v, p.1 = name then some (v.map fun p => if p.1 = name then (name, val) else p)
  else if v.length < rpsVars then some (v ++ [(name, val)])
  else none

/-- What a line outside blocks means. -/
inductive Meaning (ω : Type)
  | goes (s : Store ω)
  | ends (error : Option Err) (s : Store ω)
  | leaves (w : Str)

/-- An assignment of as much of a value as a variable holds; one that finds no room ends the script. -/
def assigns (name val : Str) (full : Err) (s : Store ω) : Meaning ω :=
  match assign s.vars name (val.take (rpsValMax - 1)) with
  | some vars => .goes { s with vars }
  | none => .ends (some full) s

/-- The value behind the name in a `set`: what stands in quotes, or all of it. -/
def literal : Str → Str
  | [] => []
  | q :: rest => if isQuote q then rest.takeWhile (· ≠ q) else q :: rest

/-- What `inc` adds. -/
def amount (arg : Str) : Int :=
  let amt := (word arg 16).1
  if amt = [] then 1 else (isNum amt).getD 1

/-- The number that a variable holds. -/
def numberOf (v : Vars) (name : Str) : Int := ((varGet v name).bind isNum).getD 0

/-- What a line outside blocks means.  `set`, `inc`, `dec`, `prompt` and `capture` assign, and no assignment is
dropped. -/
def meaning (line : Str) (s : Store ω) : Meaning ω :=
  let w := (word line 32).1
  let name := (word (word line 32).2 rpsNameMax).1
  let arg := (word (word line 32).2 rpsNameMax).2
  if w = ascii "set" then
    if name = [] then .ends (some .setNeedsName) s
    else assigns name (literal (skipWs arg)) .tooManyVariables s
  else if w = ascii "inc" then assigns name (decimal (addLong (numberOf s.vars name) (amount arg))) .tooMany s
  else if w = ascii "dec" then assigns name (decimal (addLong (numberOf s.vars name) (-amount arg))) .tooMany s
  else if w = ascii "prompt" then
    let r := host.prompt s.world (skipWs arg)
    assigns name r.1 .tooManyVariables { s with world := r.2 }
  else if w = ascii "capture" then
    let r := host.run s.world (skipWs arg) true
    assigns name (dropLineEnds (r.1.2.take (rpsValMax - 1))) .tooManyVariables { s with world := r.2 }
  else if w = ascii "stop" then .ends none s
  else if w = ascii "break" ∨ w = ascii "continue" then .leaves w
  else .goes { s with world := (host.run s.world line false).2 }

/-- One statement of a tree, or the end of a block. -/
def treeStep (c : Config ω) : Config ω ⊕ Outcome ω :=
  match c.current, c.frames with
  | .nil, [] => .inr ⟨none, c.store⟩
  | current, frames =>
    let polled := host.poll c.store.world
    let s := { c.store with world := polled.2 }
    if polled.1 then .inr ⟨some .stopped, s⟩
    else match current, frames with
    | .nil, [] => .inr ⟨none, s⟩
    | .nil, .inIf rest :: frames => .inl ⟨rest, frames, s⟩
    | .nil, .inWhile loop _ :: frames => .inl ⟨loop, frames, s⟩
    | .line text rest, frames =>
      match expanded text s.vars with
      | none => .inl ⟨rest, frames, s⟩
      | some line =>
        match meaning host line s with
        | .goes s => .inl ⟨rest, frames, s⟩
        | .ends error s => .inr ⟨error, s⟩
        | .leaves w =>
          match innermost frames with
          | none => .inr ⟨some (.outsideWhile w), s⟩
          | some (loop, rest, frames) =>
            .inl ⟨if w = ascii "break" then rest else loop, frames, s⟩
    | .ifThen head body _ rest, frames =>
      let cond := headCond host head s
      .inl (if cond.1 then ⟨body, .inIf rest :: frames, cond.2⟩ else ⟨rest, frames, cond.2⟩)
    | .ifElse head body _ other _ rest, frames =>
      let cond := headCond host head s
      .inl ⟨if cond.1 then body else other, .inIf rest :: frames, cond.2⟩
    | .whileDo head body close rest, frames =>
      let cond := headCond host head s
      .inl (if cond.1 then ⟨body, .inWhile (.whileDo head body close rest) rest :: frames, cond.2⟩
        else ⟨rest, frames, cond.2⟩)

/-- A run of a script by its structure, for some steps. -/
def treeRun (b : Block) (world : ω) (fuel : Nat) : Config ω ⊕ Outcome ω :=
  runFor (treeStep host) fuel ⟨b, [], ⟨[], world⟩⟩

end Machine

end RPCortex.Script

/-! A script runs as its structure says.  The machine that goes through the lines and the one that goes
through the tree take their steps together: the line that is next begins the statements that are left
in the innermost block, and every open block knows the line that closes it. -/

namespace RPCortex.Script

open Lib

variable {ω : Type} {host : Host ω} {lines : List Str}

/-! ### Block words -/

theorem takeWhile_stops {p : UInt8 → Bool} {w rest : Str} (all : ∀ c ∈ w, p c = true)
    (stops : ∀ c ∈ rest.head?, p c = false) : (w ++ rest).takeWhile p = w := by
  rw [List.takeWhile_append_of_pos all]
  cases rest with
  | nil => simp
  | cons c rest => rw [List.takeWhile_cons_of_neg (by simp [stops c rfl]), List.append_nil]

/-- A string is what is taken from it and a rest that stops the taking. -/
theorem exists_takeWhile (p : UInt8 → Bool) (s : Str) :
    ∃ rest, s = s.takeWhile p ++ rest ∧ ∀ c ∈ rest.head?, p c = false := by
  refine ⟨s.dropWhile p, (List.takeWhile_append_dropWhile).symm, fun c hc => ?_⟩
  have := List.head?_dropWhile_not p s
  rw [hc] at this
  simpa using this

/-- Characters that are no dollars are copied. -/
theorem expandFrom_append {v : Vars} {w rest : Str} {fuel room : Nat} (plain : dollar ∉ w)
    (enough : w.length ≤ fuel) (fits : w.length ≤ room) :
    expandFrom v fuel (w ++ rest) room = w ++ expandFrom v (fuel - w.length) rest (room - w.length) := by
  induction w generalizing fuel room with
  | nil => rfl
  | cons c w ih =>
    rw [List.mem_cons, not_or] at plain
    rw [List.length_cons] at enough fits
    obtain ⟨fuel, rfl⟩ : ∃ n, fuel = n + 1 := ⟨fuel - 1, by omega⟩
    obtain ⟨room, rfl⟩ : ∃ n, room = n + 1 := ⟨room - 1, by omega⟩
    rw [List.cons_append, expandFrom, if_pos (Ne.symm plain.1), ih plain.2 (by omega) (by omega),
      List.length_cons, Nat.add_sub_add_right, Nat.add_sub_add_right, List.cons_append]

theorem expandFrom_head {v : Vars} {s : Str} {fuel room : Nat} {p : UInt8 → Bool}
    (plain : s.head? ≠ some dollar) (stops : ∀ c ∈ s.head?, p c = false) :
    ∀ c ∈ (expandFrom v fuel s room).head?, p c = false := by
  cases fuel with
  | zero => exact fun c no => nomatch no
  | succ fuel =>
    cases s with
    | nil => exact fun c no => nomatch no
    | cons d s =>
      cases room with
      | zero => exact fun c no => nomatch no
      | succ room =>
        rw [expandFrom, if_pos (by simpa using plain)]
        simpa using stops

/-- The block words. -/
theorem of_blockWord {w : Str} {k : BlockWord} (h : blockWord w = some k) :
    w ∈ [ascii "if", ascii "while", ascii "else", ascii "end"] := by
  unfold blockWord at h
  split at h
  · simp_all
  · split at h
    · simp_all
    · split at h
      · simp_all
      · split at h
        · simp_all
        · cases h

example : (blockWord (ascii "while")).isSome = true := by decide +kernel

/-- What makes a word a block word: it is short and has nothing special in it. -/
theorem blockWord_plain {w : Str} {k : BlockWord} (h : blockWord w = some k) :
    w.length ≤ 5 ∧ w ≠ [] ∧ dollar ∉ w ∧ w.head? ≠ some 0x23 ∧
      (∀ c ∈ w, isWs c = false ∧ isQuote c = false) := by
  have mem := of_blockWord h
  simp only [List.mem_cons, List.not_mem_nil, or_false] at mem
  rcases mem with rfl | rfl | rfl | rfl
  · exact ⟨by decide, by decide, by decide, by decide, by decide +kernel⟩
  · exact ⟨by decide, by decide, by decide, by decide, by decide +kernel⟩
  · exact ⟨by decide, by decide, by decide, by decide, by decide +kernel⟩
  · exact ⟨by decide, by decide, by decide, by decide, by decide +kernel⟩

theorem isQuote_plain (q : UInt8) (h : isQuote q = true) :
    q ≠ dollar ∧ q ≠ 0x23 ∧ isWs q = false := by
  revert q
  decide +kernel

/-- A block word stays the first word of its line when the line is expanded. -/
theorem word_expanded {line : Str} {k : BlockWord} (h : lineWord line = some k) (v : Vars) :
    skipWs line ≠ [] ∧ (skipWs line).head? ≠ some 0x23 ∧
      blockWord (word (rpsExpand v (skipWs line) rpsLineMax) 32).1 = some k := by
  unfold lineWord word at h
  obtain ⟨short, nonempty, plain, comment, inside⟩ := blockWord_plain h
  generalize ht : skipWs line = t at h short nonempty plain comment inside ⊢
  have whole {s : Str} (short : (s.take 23).length ≤ 5) : s.take 23 = s := by
    rw [List.length_take] at short
    exact List.take_of_length_le (by omega)
  have skip {c : UInt8} {s : Str} (h : isWs c = false) : skipWs (c :: s) = c :: s := by
    rw [skipWs, List.dropWhile_cons_of_neg (by simp [h])]
  cases t with
  | nil => exact absurd rfl nonempty
  | cons q rest =>
    refine ⟨List.cons_ne_nil _ _, ?_⟩
    by_cases quoted : isQuote q = true
    · -- the word stands between quotes
      have open_ := isQuote_plain q quoted
      simp only [wordAt, if_pos quoted] at h short nonempty plain comment inside
      have cut := whole (s := rest.takeWhile (· ≠ q)) (by simpa using short)
      rw [show (24 - 1 : Nat) = 23 from rfl, cut] at h short nonempty plain comment inside
      obtain ⟨behind, split, stops⟩ := exists_takeWhile (· ≠ q) rest
      generalize rest.takeWhile (· ≠ q) = w at *
      refine ⟨by simpa using open_.2.1, ?_⟩
      have notDollar : behind.head? ≠ some dollar := by
        intro no
        have := stops dollar (by simp [no])
        simp only [ne_eq, decide_not, Bool.not_eq_false', decide_eq_true_eq] at this
        exact open_.1 this.symm
      have out : rpsExpand v (q :: rest) rpsLineMax =
          q :: (w ++ expandFrom v (behind.length) behind (254 - w.length)) := by
        rw [rpsExpand, split, ← List.cons_append, expandFrom_append]
        · simp only [List.length_append, List.length_cons, List.cons_append, rpsLineMax]
          congr 3
          · omega
          · omega
        · simp only [List.mem_cons, not_or]
          exact ⟨Ne.symm open_.1, plain⟩
        · simp
        · simp only [List.length_cons, rpsLineMax]
          omega
      have apart : ∀ c ∈ w, (decide (c ≠ q)) = true := by
        intro c hc
        have := (inside c hc).2
        simp only [ne_eq, decide_not, Bool.not_eq_true', decide_eq_false_iff_not]
        rintro rfl
        rw [quoted] at this
        cases this
      rw [out, word, skip open_.2.2, wordAt, if_pos quoted]
      simp only
      rw [takeWhile_stops apart (expandFrom_head notDollar stops), List.take_of_length_le (by omega)]
      exact h
    · simp only [wordAt, if_neg quoted] at h short nonempty plain comment inside
      have cut := whole (s := (q :: rest).takeWhile (!isWs ·)) (by simpa using short)
      rw [show (24 - 1 : Nat) = 23 from rfl, cut] at h short nonempty plain comment inside
      obtain ⟨behind, split, stops⟩ := exists_takeWhile (!isWs ·) (q :: rest)
      generalize (q :: rest).takeWhile (!isWs ·) = w at *
      obtain ⟨c, w', rfl⟩ := List.exists_cons_of_ne_nil nonempty
      obtain ⟨rfl, rest'⟩ := List.cons.inj split
      refine ⟨by simpa using comment, ?_⟩
      have notDollar : behind.head? ≠ some dollar := by
        intro no
        have := stops dollar (by simp [no])
        exact absurd this (by decide)
      have out : rpsExpand v (q :: rest) rpsLineMax =
          (q :: w') ++ expandFrom v (behind.length) behind (254 - w'.length) := by
        rw [rpsExpand, split, expandFrom_append plain]
        · simp only [List.length_append, List.length_cons, rpsLineMax]
          congr 2
          · omega
          · omega
        · simp
        · simp only [List.length_cons, rpsLineMax] at short ⊢
          omega
      have words : ∀ c ∈ q :: w', (!isWs c) = true := by
        intro c hc
        simp [(inside c hc).1]
      rw [out, word, List.cons_append, skip (inside q (by simp)).1, wordAt, if_neg quoted]
      simp only
      rw [← List.cons_append, takeWhile_stops words (expandFrom_head notDollar stops),
        List.take_of_length_le (by omega)]
      exact h

/-! ### Closing lines -/

theorem closeFrom_lines {b : Block} (written : b.Written) {rest : List Str} {i : Nat} {depth : Int}
    {else_ : Option Nat} (inside : 1 ≤ depth) :
    closeFrom (b.lines ++ rest) i depth else_ = closeFrom rest (i + b.lines.length) depth else_ := by
  induction b generalizing rest i depth else_ with
  | nil => rfl
  | line text more ih =>
    obtain ⟨plain, more'⟩ := written
    rw [Block.lines, List.cons_append, closeFrom, plain]
    simp only
    rw [ih more' inside, List.length_cons]
    congr 1
    omega
  | ifThen head body close more ihBody ihMore =>
    obtain ⟨opens, body', closes, more'⟩ := written
    rw [Block.lines, List.cons_append, List.append_assoc, closeFrom, opens]
    simp only
    rw [ihBody body' (by omega), List.cons_append, closeFrom, closes]
    simp only
    rw [if_neg (by omega), ihMore more' (by omega)]
    congr 1
    · simp only [List.length_cons, List.length_append]
      omega
    · omega
  | ifElse head body part other close more ihBody ihOther ihMore =>
    obtain ⟨opens, body', parts, other', closes, more'⟩ := written
    rw [Block.lines, List.cons_append, List.append_assoc, closeFrom, opens]
    simp only
    rw [ihBody body' (by omega), List.cons_append, List.append_assoc, closeFrom, parts]
    simp only
    rw [if_neg (by omega), ihOther other' (by omega), List.cons_append, closeFrom, closes]
    simp only
    rw [if_neg (by omega), ihMore more' (by omega)]
    congr 1
    · simp only [List.length_cons, List.length_append]
      omega
    · omega
  | whileDo head body close more ihBody ihMore =>
    obtain ⟨opens, body', closes, more'⟩ := written
    rw [Block.lines, List.cons_append, List.append_assoc, closeFrom, opens]
    simp only
    rw [ihBody body' (by omega), List.cons_append, closeFrom, closes]
    simp only
    rw [if_neg (by omega), ihMore more' (by omega)]
    congr 1
    · simp only [List.length_cons, List.length_append]
      omega
    · omega

theorem drop_behind {i j : Nat} {front rest : List Str} (place : lines.drop i = front ++ rest)
    (h : j = i + front.length) : lines.drop j = rest := by
  rw [h, ← List.drop_drop, place, List.drop_left]

/-- The closing line of a block without an `else`. -/
theorem findClose_body {i : Nat} {head close : Str} {body : Block} {rest : List Str}
    (opens : lineWord head = some .opensIf ∨ lineWord head = some .opensWhile)
    (written : body.Written) (closes : lineWord close = some .closes)
    (place : lines.drop i = head :: (body.lines ++ close :: rest)) :
    findClose lines i = some (i + 1 + body.lines.length, none) ∧
      lines.drop (i + 1 + body.lines.length + 1) = rest := by
  constructor
  · rw [findClose, place, closeFrom]
    rcases opens with opens | opens
    all_goals
      rw [opens]
      simp only
      rw [closeFrom_lines written (by omega), closeFrom, closes]
      rfl
  · have shape : lines.drop i = (head :: (body.lines ++ [close])) ++ rest := by simpa using place
    refine drop_behind shape ?_
    simp only [List.length_cons, List.length_append, List.length_nil]
    omega

/-- The `else` and the closing line of a block that has one. -/
theorem findClose_parts {i : Nat} {head part close : Str} {body other : Block} {rest : List Str}
    (opens : lineWord head = some .opensIf) (written : body.Written)
    (parts : lineWord part = some .parts) (written' : other.Written)
    (closes : lineWord close = some .closes)
    (place : lines.drop i = head :: (body.lines ++ part :: (other.lines ++ close :: rest))) :
    ∃ else_ end_, findClose lines i = some (end_, some else_) ∧
      lines.drop (else_ + 1) = other.lines ++ close :: rest ∧ lines.drop (end_ + 1) = rest := by
  refine ⟨i + 1 + body.lines.length, i + 1 + body.lines.length + 1 + other.lines.length, ?_, ?_, ?_⟩
  · rw [findClose, place, closeFrom, opens]
    simp only
    rw [closeFrom_lines written (by omega), closeFrom, parts]
    simp only
    rw [closeFrom_lines written' (by omega), closeFrom, closes]
    rfl
  · have shape : lines.drop i = (head :: (body.lines ++ [part])) ++ (other.lines ++ close :: rest) := by
      simpa using place
    refine drop_behind shape ?_
    simp only [List.length_cons, List.length_append, List.length_nil]
    omega
  · have shape : lines.drop i =
        (head :: (body.lines ++ part :: (other.lines ++ [close]))) ++ rest := by simpa using place
    refine drop_behind shape ?_
    simp only [List.length_cons, List.length_append, List.length_nil]
    omega

/-! ### The two machines -/

/-- The statements behind an open block: where they are, and that there is room for their blocks. -/
structure Behind (lines : List Str) (head end_ : Nat) (rest : Block) (tail : List Str)
    (stack : List OpenBlock) : Prop where
  closed : ∃ else_, findClose lines head = some (end_, else_)
  place : lines.drop (end_ + 1) = rest.lines ++ tail
  written : rest.Written
  deep : rest.depth + stack.length ≤ rpsDepth

/-- The lines behind the statements of the innermost block, with the open blocks. -/
inductive Around (lines : List Str) : List Str → List OpenBlock → List Frame → Prop
  | top : Around lines [] [] []
  | ifEnd {head end_ : Nat} {close : Str} {rest : Block} {tail : List Str} {stack : List OpenBlock}
      {frames : List Frame} (closes : lineWord close = some .closes)
      (behind : Behind lines head end_ rest tail stack) (outer : Around lines tail stack frames) :
      Around lines (close :: (rest.lines ++ tail)) (⟨.if_, head⟩ :: stack) (.inIf rest :: frames)
  | ifPart {head end_ : Nat} {part : Str} {more : List Str} {rest : Block} {tail : List Str}
      {stack : List OpenBlock} {frames : List Frame} (parts : lineWord part = some .parts)
      (behind : Behind lines head end_ rest tail stack) (outer : Around lines tail stack frames) :
      Around lines (part :: more) (⟨.if_, head⟩ :: stack) (.inIf rest :: frames)
  | whileEnd {head end_ : Nat} {close : Str} {loop rest : Block} {tail : List Str}
      {stack : List OpenBlock} {frames : List Frame} (closes : lineWord close = some .closes)
      (again : lines.drop head = loop.lines ++ tail) (written : loop.Written)
      (deep : loop.depth + stack.length ≤ rpsDepth)
      (behind : Behind lines head end_ rest tail stack) (outer : Around lines tail stack frames) :
      Around lines (close :: (rest.lines ++ tail)) (⟨.while_, head⟩ :: stack)
        (.inWhile loop rest :: frames)

/-- The next line begins the statements that are left. -/
structure At (lines : List Str) (s : State ω) (c : Config ω) : Prop where
  place : ∃ tail, lines.drop s.i = c.current.lines ++ tail ∧ Around lines tail s.stack c.frames
  written : c.current.Written
  deep : c.current.depth + s.stack.length ≤ rpsDepth
  store : s.store = c.store

/-- Leaving the blocks up to the innermost loop. -/
theorem Around.unwind {tail : List Str} {stack : List OpenBlock} {frames : List Frame}
    (around : Around lines tail stack frames) :
    (innermost frames = none ∧ unwind stack = []) ∨
      ∃ loop rest frames' head end_ tail' stack', innermost frames = some (loop, rest, frames') ∧
        unwind stack = ⟨.while_, head⟩ :: stack' ∧ lines.drop head = loop.lines ++ tail' ∧
        loop.Written ∧ loop.depth + stack'.length ≤ rpsDepth ∧
        Behind lines head end_ rest tail' stack' ∧ Around lines tail' stack' frames' := by
  induction around with
  | top => exact Or.inl ⟨rfl, rfl⟩
  | ifEnd _ _ _ ih => exact ih
  | ifPart _ _ _ ih => exact ih
  | whileEnd closes again written deep behind outer _ =>
    exact Or.inr ⟨_, _, _, _, _, _, _, rfl, rfl, again, written, deep, behind, outer⟩

/-- Both runs go on with the same variables and the same host, or both end alike. -/
def Alike (lines : List Str) : State ω ⊕ Ended ω → Config ω ⊕ Outcome ω → Prop
  | .inl s, .inl c => At lines s c
  | .inr e, .inr o => e.store = o.store ∧ e.ending.error = o.error
  | _, _ => False

/-- The line that is next does not turn into one of a block. -/
def Steady (c : Config ω) : Prop :=
  ∀ text rest, c.current = .line text rest → ∀ line ∈ expanded text c.store.vars,
    blockWord (word line 32).1 = none

/-- A `prompt` or a `capture` that is next has room for its variable. -/
def Roomy (c : Config ω) : Prop :=
  ∀ text rest, c.current = .line text rest → ∀ line ∈ expanded text c.store.vars,
    (word line 32).1 ∈ [ascii "prompt", ascii "capture"] →
      (word (word line 32).2 rpsNameMax).1 ∈ c.store.vars.map Prod.fst ∨ c.store.vars.length < rpsVars

/-! ### Statements -/

theorem length_word_le (s : Str) (cap : Nat) : (word s cap).1.length ≤ cap - 1 := by
  unfold word wordAt
  split
  · exact Nat.zero_le _
  · split
    · exact List.length_take_le ..
    · exact List.length_take_le ..

theorem skipWs_skipWs (s : Str) : skipWs (skipWs s) = skipWs s := List.dropWhile_idempotent _ s

/-- `var_set` assigns. -/
theorem varSet_eq (v : Vars) {name : Str} (fits : name.length ≤ rpsNameMax - 1) (val : Str) :
    varSet v name val = assign v name (val.take (rpsValMax - 1)) := by
  have held : (v.any fun p => p.1 = name) = true ↔ ∃ p ∈ v, p.1 = name := by
    simp [List.any_eq_true]
  unfold varSet assign
  by_cases known : ∃ p ∈ v, p.1 = name
  · rw [if_pos (held.mpr known), if_pos known]
    congr 1
    refine List.map_congr_left fun p _ => ?_
    by_cases same : p.1 = name
    · rw [if_pos same, if_pos same, same]
    · rw [if_neg same, if_neg same]
  · rw [if_neg (mt held.mp known), if_neg known, List.take_of_length_le fits]
    by_cases room : v.length < rpsVars
    · rw [if_neg (Nat.not_le_of_lt room), if_pos room]
    · rw [if_pos (Nat.le_of_not_lt room), if_neg room]

/-- The value of a `set` in the buffer of the code. -/
theorem take_literal (arg : Str) :
    ((match (skipWs arg).take (rpsValMax - 1) with
      | q :: _ => if isQuote q then (word (skipWs arg) rpsValMax).1 else (skipWs arg).take (rpsValMax - 1)
      | [] => (skipWs arg).take (rpsValMax - 1)).take (rpsValMax - 1)) =
      (literal (skipWs arg)).take (rpsValMax - 1) := by
  rw [word, skipWs_skipWs]
  cases skipWs arg with
  | nil => rfl
  | cons q rest =>
    rw [show (q :: rest).take (rpsValMax - 1) = q :: rest.take 126 from rfl]
    simp only [literal, wordAt]
    by_cases quoted : isQuote q = true
    · simp only [quoted, if_true, List.take_take, min_self]
    · simp only [quoted, if_false, Bool.false_eq_true]
      simp [rpsValMax]

/-- What the effect of a statement means. -/
def Effect.meaning (s : Store ω) : Effect ω → Meaning ω
  | .next s => .goes s
  | .stop => .ends none s
  | .fail e => .ends (some e) s
  | .leave w => .leaves w

/-- Where there is room, a variable that is set without a look at the result is set. -/
theorem assigns_of_setOrKeep {name : Str} (fits : name.length ≤ rpsNameMax - 1) (val : Str) (full : Err)
    {s : Store ω} (room : name ∈ s.vars.map Prod.fst ∨ s.vars.length < rpsVars) :
    assigns name val full s = .goes { s with vars := setOrKeep s.vars name val } := by
  rw [assigns, setOrKeep, varSet_eq _ fits, assign]
  by_cases known : ∃ p ∈ s.vars, p.1 = name
  · rw [if_pos known]
    rfl
  · rw [if_neg known, if_pos (room.resolve_left fun mem => known (List.mem_map.mp mem))]
    rfl

/-- What `var_set` says is looked at. -/
theorem assigns_of_varSet {name : Str} (fits : name.length ≤ rpsNameMax - 1) (val : Str) (full : Err) (s : Store ω) :
    assigns name val full s = Effect.meaning s
      (match varSet s.vars name val with
        | none => .fail full
        | some vars => .next { s with vars }) := by
  rw [assigns, varSet_eq _ fits]
  cases assign s.vars name (val.take (rpsValMax - 1)) <;> rfl

/-- Every statement does what it means, where a `prompt` or a `capture` finds room for its variable. -/
theorem statement_meaning {line : Str} {s : Store ω}
    (roomy : (word line 32).1 ∈ [ascii "prompt", ascii "capture"] →
      (word (word line 32).2 rpsNameMax).1 ∈ s.vars.map Prod.fst ∨ s.vars.length < rpsVars) :
    meaning host line s = (statement host line (word line 32).1 (word line 32).2 s).meaning s := by
  have fits := length_word_le (word line 32).2 rpsNameMax
  unfold meaning statement
  generalize (word line 32).1 = w, word (word line 32).2 rpsNameMax = name at *
  by_cases set : w = ascii "set"
  · simp only [if_pos set]
    by_cases named : name.1 = []
    · simp only [if_pos named]
      rfl
    · simp only [if_neg named]
      rw [assigns, ← take_literal, ← assigns]
      exact assigns_of_varSet fits _ _ s
  simp only [if_neg set]
  by_cases inc : w = ascii "inc"
  · have dec : ¬ascii "inc" = ascii "dec" := by decide
    simp only [inc, if_true, true_or, if_neg dec]
    exact assigns_of_varSet fits _ _ s
  by_cases dec : w = ascii "dec"
  · simp only [dec, if_true, or_true, if_neg (show ¬ascii "dec" = ascii "inc" by decide)]
    exact assigns_of_varSet fits _ _ s
  simp only [inc, dec, or_self, if_false]
  by_cases prompt : w = ascii "prompt"
  · simp only [if_pos prompt]
    exact assigns_of_setOrKeep fits _ _ (roomy (by simp [prompt]))
  simp only [if_neg prompt]
  by_cases capture : w = ascii "capture"
  · simp only [if_pos capture]
    exact assigns_of_setOrKeep fits _ _ (roomy (by simp [capture]))
  simp only [if_neg capture]
  by_cases stop : w = ascii "stop"
  · simp only [if_pos stop]
    rfl
  simp only [if_neg stop]
  split <;> rfl

theorem getElem?_of_drop {i : Nat} {line : Str} {rest : List Str} (h : lines.drop i = line :: rest) :
    lines[i]? = some line ∧ lines.drop (i + 1) = rest := by
  constructor
  · have := congrArg List.head? h
    rwa [List.head?_drop] at this
  · rw [← List.drop_drop, h]
    rfl

/-- The state behind the call of `poll`. -/
def State.polled (s : State ω) (host : Host ω) : State ω :=
  { s with store := { s.store with world := (host.poll s.store.world).2 } }

theorem step_stopped {s : State ω} {raw : Str} (here : lines[s.i]? = some raw)
    (polled : (host.poll s.store.world).1 = true) :
    step host lines s = fail (s.polled host) .stopped := by
  rw [step, here]
  simp only [polled, if_true]
  rfl

/-- A line of a block. -/
theorem step_block {s : State ω} {raw : Str} {k : BlockWord} (here : lines[s.i]? = some raw)
    (h : lineWord raw = some k) (polled : (host.poll s.store.world).1 = false) :
    step host lines s = blockStep host lines k
      (word (rpsExpand s.store.vars (skipWs raw) rpsLineMax) 32).2
      { s.polled host with executed := s.executed + 1 } := by
  obtain ⟨nonempty, comment, same⟩ := word_expanded h s.store.vars
  rw [step, here]
  simp only [polled, Bool.false_eq_true, if_false]
  rw [if_neg (not_or.mpr ⟨nonempty, comment⟩)]
  simp only [same]
  rfl

variable {s : State ω} {c : Config ω}

theorem Block.lines_eq_cons {b : Block} (h : b ≠ .nil) : ∃ head rest, b.lines = head :: rest := by
  cases b with
  | nil => exact absurd rfl h
  | line text rest => exact ⟨_, _, rfl⟩
  | ifThen head body close rest => exact ⟨_, _, rfl⟩
  | ifElse head body part other close rest => exact ⟨_, _, rfl⟩
  | whileDo head body close rest => exact ⟨_, _, rfl⟩

/-- A line that is there, and the machines that are at it. -/
theorem At.line {c : Config ω} (at_ : At lines s c) (more : c.current ≠ .nil ∨ c.frames ≠ []) :
    ∃ raw, lines[s.i]? = some raw := by
  obtain ⟨⟨tail, place, around⟩, _, _, _⟩ := at_
  obtain ⟨i, stack, executed, _⟩ := s
  obtain ⟨current, frames, _⟩ := c
  by_cases nil : current = .nil
  · rw [nil, Block.lines, List.nil_append] at place
    cases around with
    | top => exact absurd rfl (more.resolve_left (not_not_intro nil))
    | ifEnd => exact ⟨_, (getElem?_of_drop place).1⟩
    | ifPart => exact ⟨_, (getElem?_of_drop place).1⟩
    | whileEnd => exact ⟨_, (getElem?_of_drop place).1⟩
  · obtain ⟨head, rest, eq⟩ := Block.lines_eq_cons nil
    rw [eq, List.cons_append] at place
    exact ⟨_, (getElem?_of_drop place).1⟩

theorem treeStep_stopped (more : c.current ≠ .nil ∨ c.frames ≠ [])
    (polled : (host.poll c.store.world).1 = true) :
    treeStep host c = .inr ⟨some .stopped, { c.store with world := (host.poll c.store.world).2 }⟩ := by
  obtain ⟨current, frames, store⟩ := c
  cases current with
  | nil =>
    cases frames with
    | nil => simp at more
    | cons frame frames => simp only [treeStep, polled, if_true]
  | line text rest => simp only [treeStep, polled, if_true]
  | ifThen head body close rest => simp only [treeStep, polled, if_true]
  | ifElse head body part other close rest => simp only [treeStep, polled, if_true]
  | whileDo head body close rest => simp only [treeStep, polled, if_true]

/-- Both machines are stopped by `poll` alike. -/
theorem stopped_alike (at_ : At lines s c) (more : c.current ≠ .nil ∨ c.frames ≠ [])
    (polled : (host.poll s.store.world).1 = true) :
    Alike lines (step host lines s) (treeStep host c) := by
  obtain ⟨raw, here⟩ := at_.line more
  have same := at_.store
  rw [step_stopped here polled, treeStep_stopped more (by rw [← same]; exact polled)]
  exact ⟨by rw [← same]; rfl, rfl⟩

/-- At the end of the script. -/
theorem done_alike {i executed : Nat} {stack : List OpenBlock} {store : Store ω}
    (at_ : At lines ⟨i, stack, executed, store⟩ ⟨.nil, [], store⟩) :
    Alike lines (step host lines ⟨i, stack, executed, store⟩) (treeStep host ⟨.nil, [], store⟩) := by
  obtain ⟨⟨tail, place, around⟩, _, _, _⟩ := at_
  cases around
  have none : lines[i]? = none := by
    rw [List.getElem?_eq_none_iff]
    exact List.drop_eq_nil_iff.mp place
  simp only [step, none]
  exact ⟨rfl, rfl⟩

/-- At the end of a block. -/
theorem nil_alike {i executed : Nat} {stack : List OpenBlock} {frames : List Frame} {store : Store ω}
    (at_ : At lines ⟨i, stack, executed, store⟩ ⟨.nil, frames, store⟩)
    (polled : (host.poll store.world).1 = false) :
    Alike lines (step host lines ⟨i, stack, executed, store⟩) (treeStep host ⟨.nil, frames, store⟩) := by
  obtain ⟨⟨tail, place, around⟩, atEnd, room, _⟩ := at_
  simp only [Block.lines, List.nil_append] at place
  cases around with
  | top => exact done_alike ⟨⟨[], place, .top⟩, atEnd, room, rfl⟩
  | ifEnd closes behind outer =>
    obtain ⟨here, next⟩ := getElem?_of_drop place
    rw [step_block here closes polled]
    simp only [blockStep, treeStep, polled, Bool.false_eq_true, if_false]
    exact ⟨⟨_, next, outer⟩, behind.written, behind.deep, rfl⟩
  | ifPart parts behind outer =>
    obtain ⟨here, _⟩ := getElem?_of_drop place
    obtain ⟨else_, closed⟩ := behind.closed
    rw [step_block here parts polled]
    simp only [blockStep, State.polled, closed, treeStep, polled, Bool.false_eq_true, if_false]
    exact ⟨⟨_, behind.place, outer⟩, behind.written, behind.deep, rfl⟩
  | whileEnd closes again written deep behind outer =>
    obtain ⟨here, _⟩ := getElem?_of_drop place
    rw [step_block here closes polled]
    simp only [blockStep, treeStep, polled, Bool.false_eq_true, if_false]
    exact ⟨⟨_, again, outer⟩, written, deep, rfl⟩

/-- A line that is not about blocks. -/
theorem line_alike {i executed : Nat} {stack : List OpenBlock} {frames : List Frame} {store : Store ω}
    {text : Str} {rest : Block}
    (at_ : At lines ⟨i, stack, executed, store⟩ ⟨.line text rest, frames, store⟩)
    (steady : Steady ⟨.line text rest, frames, store⟩) (roomy : Roomy ⟨.line text rest, frames, store⟩)
    (polled : (host.poll store.world).1 = false) :
    Alike lines (step host lines ⟨i, stack, executed, store⟩)
      (treeStep host ⟨.line text rest, frames, store⟩) := by
  obtain ⟨⟨tail, place, around⟩, written, deep, _⟩ := at_
  obtain ⟨here, next⟩ := getElem?_of_drop place
  have behind {executed : Nat} {store : Store ω} :
      At lines ⟨i + 1, stack, executed, store⟩ ⟨rest, frames, store⟩ :=
    ⟨⟨tail, next, around⟩, written.2, deep, rfl⟩
  simp only [step, here, treeStep, polled, Bool.false_eq_true, if_false, expanded]
  split
  · exact behind
  · rename_i some_
    have next_ := steady text rest rfl _ (if_neg some_)
    have does : meaning host _ ⟨store.vars, (host.poll store.world).2⟩ = _ :=
      statement_meaning (roomy text rest rfl _ (if_neg some_))
    simp only [next_, does]
    generalize statement host _ _ _ _ = effect
    cases effect with
    | next store => exact behind
    | stop => exact ⟨rfl, rfl⟩
    | fail e => exact ⟨rfl, rfl⟩
    | leave w =>
      simp only [Effect.meaning]
      rcases around.unwind with ⟨outside, empty⟩ | inside
      · rw [outside, empty]
        exact ⟨rfl, rfl⟩
      · obtain ⟨loop, rest', frames', head, end_, tail', stack', inner, unwound, again, written', deep',
          behind', outer⟩ := inside
        obtain ⟨else_, closed⟩ := behind'.closed
        rw [inner, unwound]
        simp only [closed]
        by_cases break_ : w = ascii "break"
        · rw [if_pos break_, if_pos break_]
          exact ⟨⟨tail', behind'.place, outer⟩, behind'.written, behind'.deep, rfl⟩
        · rw [if_neg break_, if_neg break_]
          exact ⟨⟨tail', again, outer⟩, written', deep', rfl⟩

/-- An `if` without an `else`. -/
theorem ifThen_alike {i executed : Nat} {stack : List OpenBlock} {frames : List Frame} {store : Store ω}
    {head close : Str} {body rest : Block}
    (at_ : At lines ⟨i, stack, executed, store⟩ ⟨.ifThen head body close rest, frames, store⟩)
    (polled : (host.poll store.world).1 = false) :
    Alike lines (step host lines ⟨i, stack, executed, store⟩)
      (treeStep host ⟨.ifThen head body close rest, frames, store⟩) := by
  obtain ⟨⟨tail, place, around⟩, ⟨opens, body', closes, rest'⟩, deep, _⟩ := at_
  simp only [Block.lines, List.cons_append, List.append_assoc] at place
  simp only [Block.depth] at deep
  obtain ⟨here, next⟩ := getElem?_of_drop place
  obtain ⟨closed, end_⟩ := findClose_body (Or.inl opens) body' closes place
  have room : ¬rpsDepth ≤ stack.length := by omega
  rw [step_block here opens polled]
  simp only [blockStep, State.polled, room, if_false, closed, treeStep, polled, Bool.false_eq_true, headCond]
  by_cases holds : (evalCond host (skipWs (word (rpsExpand store.vars (skipWs head) rpsLineMax) 32).2)
      (host.poll store.world).2).1 = true
  · simp only [holds, if_true]
    refine ⟨⟨_, next, .ifEnd closes ⟨⟨_, closed⟩, end_, rest', ?_⟩ around⟩, body', ?_, rfl⟩
    · omega
    · simp only [List.length_cons]
      omega
  · simp only [holds, Bool.false_eq_true, if_false]
    exact ⟨⟨tail, end_, around⟩, rest', by simp only; omega, rfl⟩

/-- An `if` with an `else`. -/
theorem ifElse_alike {i executed : Nat} {stack : List OpenBlock} {frames : List Frame} {store : Store ω}
    {head part close : Str} {body other rest : Block}
    (at_ : At lines ⟨i, stack, executed, store⟩ ⟨.ifElse head body part other close rest, frames, store⟩)
    (polled : (host.poll store.world).1 = false) :
    Alike lines (step host lines ⟨i, stack, executed, store⟩)
      (treeStep host ⟨.ifElse head body part other close rest, frames, store⟩) := by
  obtain ⟨⟨tail, place, around⟩, ⟨opens, body', parts, other', closes, rest'⟩, deep, _⟩ := at_
  simp only [Block.lines, List.cons_append, List.append_assoc] at place
  simp only [Block.depth] at deep
  obtain ⟨here, next⟩ := getElem?_of_drop place
  obtain ⟨else_, end_, closed, second, out⟩ := findClose_parts opens body' parts other' closes place
  have room : ¬rpsDepth ≤ stack.length := by omega
  have behind : Behind lines i end_ rest tail stack := ⟨⟨_, closed⟩, out, rest', by omega⟩
  rw [step_block here opens polled]
  simp only [blockStep, State.polled, room, if_false, closed, treeStep, polled, Bool.false_eq_true, headCond]
  by_cases holds : (evalCond host (skipWs (word (rpsExpand store.vars (skipWs head) rpsLineMax) 32).2)
      (host.poll store.world).2).1 = true
  · simp only [holds, if_true]
    refine ⟨⟨_, next, .ifPart parts behind around⟩, body', ?_, rfl⟩
    simp only [List.length_cons]
    omega
  · simp only [holds, Bool.false_eq_true, if_false]
    refine ⟨⟨_, second, .ifEnd closes behind around⟩, other', ?_, rfl⟩
    simp only [List.length_cons]
    omega

/-- A `while`. -/
theorem whileDo_alike {i executed : Nat} {stack : List OpenBlock} {frames : List Frame} {store : Store ω}
    {head close : Str} {body rest : Block}
    (at_ : At lines ⟨i, stack, executed, store⟩ ⟨.whileDo head body close rest, frames, store⟩)
    (polled : (host.poll store.world).1 = false) :
    Alike lines (step host lines ⟨i, stack, executed, store⟩)
      (treeStep host ⟨.whileDo head body close rest, frames, store⟩) := by
  obtain ⟨⟨tail, whole, around⟩, written, deep, _⟩ := at_
  obtain ⟨opens, body', closes, rest'⟩ := id written
  have place := whole
  simp only [Block.lines, List.cons_append, List.append_assoc] at place
  have deep' := deep
  simp only [Block.depth] at deep'
  obtain ⟨here, next⟩ := getElem?_of_drop place
  obtain ⟨closed, end_⟩ := findClose_body (Or.inr opens) body' closes place
  have room : ¬rpsDepth ≤ stack.length := by omega
  rw [step_block here opens polled]
  simp only [blockStep, State.polled, room, if_false, closed, treeStep, polled, Bool.false_eq_true, headCond]
  by_cases holds : (evalCond host (skipWs (word (rpsExpand store.vars (skipWs head) rpsLineMax) 32).2)
      (host.poll store.world).2).1 = true
  · simp only [holds, if_true]
    refine ⟨⟨_, next, .whileEnd closes whole written deep ⟨⟨_, closed⟩, end_, rest', ?_⟩ around⟩, body', ?_,
      rfl⟩
    · omega
    · simp only [List.length_cons]
      omega
  · simp only [holds, Bool.false_eq_true, if_false]
    exact ⟨⟨tail, end_, around⟩, rest', by simp only; omega, rfl⟩

/-- The machines take their steps together. -/
theorem step_alike (at_ : At lines s c) (steady : Steady c) (roomy : Roomy c) :
    Alike lines (step host lines s) (treeStep host c) := by
  by_cases more : c.current ≠ .nil ∨ c.frames ≠ []
  · cases polled : (host.poll s.store.world).1 with
    | true => exact stopped_alike at_ more polled
    | false =>
      obtain ⟨i, stack, executed, store⟩ := s
      obtain ⟨current, frames, store'⟩ := c
      obtain rfl : store = store' := at_.store
      cases current with
      | nil => exact nil_alike at_ polled
      | line text rest => exact line_alike at_ steady roomy polled
      | ifThen head body close rest => exact ifThen_alike at_ polled
      | ifElse head body part other close rest => exact ifElse_alike at_ polled
      | whileDo head body close rest => exact whileDo_alike at_ polled
  · obtain ⟨i, stack, executed, store⟩ := s
    obtain ⟨current, frames, store'⟩ := c
    obtain rfl : store = store' := at_.store
    simp only [ne_eq, not_or, not_not] at more
    obtain ⟨rfl, rfl⟩ := more
    exact done_alike at_

/-- So they run together, as long as no line turns into one of a block and variables have room. -/
theorem runFor_alike {fuel : Nat} (at_ : At lines s c)
    (steady : ∀ n c', runFor (treeStep host) n c = .inl c' → Steady c')
    (roomy : ∀ n c', runFor (treeStep host) n c = .inl c' → Roomy c') :
    Alike lines (runFor (step host lines) fuel s) (runFor (treeStep host) fuel c) := by
  induction fuel generalizing s c with
  | zero => exact at_
  | succ fuel ih =>
    have one : Alike lines (step host lines s) (treeStep host c) := step_alike at_ (steady 0 c rfl) (roomy 0 c rfl)
    simp only [runFor]
    cases flat : step host lines s with
    | inl s' =>
      cases tree : treeStep host c with
      | inl c' =>
        rw [flat, tree] at one
        have behind {n : Nat} {c'' : Config ω} (reached : runFor (treeStep host) n c' = .inl c'') :
            runFor (treeStep host) (n + 1) c = .inl c'' := by
          simp only [runFor, tree]
          exact reached
        exact ih one (fun n c'' reached => steady (n + 1) c'' (behind reached))
          fun n c'' reached => roomy (n + 1) c'' (behind reached)
      | inr o =>
        rw [flat, tree] at one
        exact one.elim
    | inr e =>
      cases tree : treeStep host c with
      | inl c' =>
        rw [flat, tree] at one
        exact one.elim
      | inr o =>
        rw [flat, tree] at one
        exact one

end RPCortex.Script
