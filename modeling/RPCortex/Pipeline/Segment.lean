import RPCortex.Lib.Run

/-! Pipelines and redirects, `run_segment` of `shell.cpp` with the capture of `out.cpp`.  One capture and one
piped input serve all tasks.  A task is in a stack of calls of `run_segment`, the last of which is the one that
goes on; what a command does in between is left open: it writes, reads its input and runs further lines. -/

namespace RPCortex.Pipeline

open Lib

/-- `PIPE_BUF`. -/
def pipeBuf : Nat := 2048

/-- A buffer's bytes; `none` is a byte that was never written. -/
abbrev Cells : Type := Nat → Option UInt8

/-- `cap_append` on what is behind the escapes: the state of the escapes, and the byte if it is text. -/
def strip (esc : Nat) (c : UInt8) : Nat × Option UInt8 :=
  if esc = 1 then (if c = 0x5B then 2 else 0, none)
  else if esc = 2 then (if 0x40 ≤ c ∧ c ≤ 0x7E then 0 else 2, none)
  else if c = 0x1B then (1, none)
  else (esc, some c)

/-- The text of what is written, without its escapes, and the state of the escapes. -/
def texts (esc : Nat) : List UInt8 → Nat × List UInt8
  | [] => (esc, [])
  | c :: rest =>
    let r := strip esc c
    let s := texts r.1 rest
    (s.1, r.2.toList ++ s.2)

/-- What a command puts out through `out_write`, `out_multi` and `out_blank`. -/
inductive Output where
  | write (data : List UInt8)
  | multi (line : List UInt8)
  | blank

/-- The bytes of it, as the console would have them. -/
def Output.bytes : Output → List UInt8
  | .write data => data
  | .multi line => line ++ [0x0A]
  | .blank => [0x0A]

/-- What a call of `run_segment` does next. -/
inductive Pc
  /-- It clears the piped input. -/
  | enter
  /-- A stage begins: a buffer, and the capture. -/
  | stage
  | begin
  /-- The command runs. -/
  | run
  /-- The command has seen its input at `p`, and has read the length too. -/
  | readLen (p : Nat)
  | readData (p n : Nat)
  /-- The capture ends. -/
  | stop
  /-- The redirected file is written, or the next stage gets its input. -/
  | file (n : Nat)
  | hand (n : Nat)
  | leave
  | freeA
  | freeB
  | done
  deriving DecidableEq

/-- A call of `run_segment`: `left` stages come after the current one.  History: the escapes and the text of
what the current stage wrote through the captured channel, and what the stage before it did. -/
structure Frame where
  task : Nat
  left : Nat
  outfile : Option String
  bufA : Option Nat
  bufB : Option Nat
  pc : Pc
  esc : Nat
  wrote : List UInt8
  given : Option (List UInt8)

/-- `capturing`. -/
def Frame.capturing (f : Frame) : Bool := 0 < f.left || f.outfile.isSome

/-- Whether a captured command of the call runs, up to the end of its capture. -/
def Frame.catching (f : Frame) : Bool :=
  f.capturing && match f.pc with
    | .run | .readLen _ | .readData _ _ | .stop => true
    | _ => false

/-- The state: the capture, the piped input, the buffers, and the calls by number with the stack of each task.
History: what was written to files with what the stage had written, and what a stage saw as its input with what
the stage before had written, `none` where there is none. -/
structure State where
  cap : Option Nat
  capSize : Nat
  capLen : Nat
  capOver : Bool
  capOwner : Nat
  capEsc : Nat
  stdin : Option Nat
  stdinLen : Nat
  heap : Nat → Option Cells
  next : Nat
  frames : Nat → Frame
  nextFrame : Nat
  calls : Nat → List Nat
  files : List (List (Option UInt8) × List UInt8)
  inputs : List (Option (List (Option UInt8)) × Option (List UInt8))

def start : State where
  cap := none
  capSize := 0
  capLen := 0
  capOver := false
  capOwner := 0
  capEsc := 0
  stdin := none
  stdinLen := 0
  heap := fun _ => none
  next := 0
  frames := fun _ => ⟨0, 0, none, none, none, .done, 0, [], none⟩
  nextFrame := 0
  calls := fun _ => []
  files := []
  inputs := []

namespace State

variable (s : State)

/-- The first `n` bytes of a buffer; a buffer that was freed has none. -/
def readBuf (b n : Nat) : List (Option UInt8) :=
  (List.range n).map fun i => (s.heap b).bind fun cells => cells i

def store (b i : Nat) (c : UInt8) : State :=
  { s with heap := upd s.heap b ((s.heap b).map fun cells => upd cells i (some c)) }

def setFrame (k : Nat) (f : Frame) : State := { s with frames := upd s.frames k f }

/-- `begin` of `out.cpp`: an open capture refuses another one. -/
def begin (b cap owner : Nat) : State :=
  if s.cap.isSome || cap = 0 then s
  else { s with cap := some b, capSize := cap, capLen := 0, capOver := false, capOwner := owner, capEsc := 0 }.store b 0 0

/-- The loop of `cap_append`. -/
def capLoop (b : Nat) : List UInt8 → State → State
  | [], s => s
  | c :: rest, s =>
    let r := strip s.capEsc c
    match r.2 with
    | none => capLoop b rest { s with capEsc := r.1 }
    | some c =>
      if s.capSize ≤ s.capLen + 1 then { s with capOver := true }
      else capLoop b rest { s.store b s.capLen c with capLen := s.capLen + 1 }

/-- `cap_append`, with the terminator. -/
def capAppend (b : Nat) (bytes : List UInt8) : State :=
  let s := capLoop b bytes s
  s.store b s.capLen 0

/-- Some bytes one after the other. -/
def storeAll (b : Nat) : (i : Nat) → List UInt8 → State → State
  | _, [], s => s
  | i, c :: rest, s => storeAll b (i + 1) rest (s.store b i c)

/-- The loop of `cap_append` over `n` bytes of its own buffer from `p` on. -/
def capBack (b : Nat) : (n p : Nat) → State → State
  | 0, _, s => s
  | n + 1, p, s =>
    let r := strip s.capEsc (((s.heap b).bind fun cells => cells p).getD 0)
    match r.2 with
    | none => capBack b n (p + 1) { s with capEsc := r.1 }
    | some c =>
      if s.capSize ≤ s.capLen + 1 then { s with capOver := true }
      else capBack b n (p + 1) { s.store b s.capLen c with capLen := s.capLen + 1 }

/-- The newline of a line, with an escape state of its own; the shared one is left alone. -/
def capNewline (b : Nat) : State := { { s with capEsc := 0 }.capAppend b [0x0A] with capEsc := s.capEsc }

/-- A line: `vsnprintf` into the room that is left, read back through the filter with a state of its own. -/
def capLine (b : Nat) (line : List UInt8) : State :=
  let room := s.capSize - 1 - s.capLen
  let formatted := { storeAll b s.capLen (line.take room ++ [0]) s with
    capOver := s.capOver || decide (room < line.length), capEsc := 0 }
  let stripped := capBack b (min line.length room) s.capLen formatted
  { stripped.store b stripped.capLen 0 with capEsc := s.capEsc }

/-- `capturing_here`, with the buffer. -/
def capturingHere (t : Nat) : Option Nat := if s.capOwner = t then s.cap else none

/-- `out_write` of a task: to the capture when it is the task's, else to the console. -/
def outWrite (t : Nat) (bytes : List UInt8) : State :=
  match s.capturingHere t with
  | some b => s.capAppend b bytes
  | none => s

/-- `out_multi` of a task. -/
def outMulti (t : Nat) (line : List UInt8) : State :=
  match s.capturingHere t with
  | some b => (s.capLine b line).capNewline b
  | none => s

/-- `out_blank` of a task. -/
def outBlank (t : Nat) : State :=
  match s.capturingHere t with
  | some b => s.capNewline b
  | none => s

def output (t : Nat) : Output → State
  | .write data => s.outWrite t data
  | .multi line => s.outMulti t line
  | .blank => s.outBlank t

/-- The call that what the task writes belongs to: the innermost one that captures. -/
def catcher (t : Nat) : Option Nat := (s.calls t).find? fun k => (s.frames k).catching

/-- What is put out is noted with the call that it belongs to. -/
def note (t : Nat) (out : Output) : State :=
  match s.catcher t with
  | none => s
  | some k =>
    let f := s.frames k
    let r := texts f.esc out.bytes
    s.setFrame k { f with esc := r.1, wrote := f.wrote ++ r.2 }

/-- A new buffer. -/
def alloc : State := { s with heap := upd s.heap s.next (some fun _ => none), next := s.next + 1 }

def free (b : Option Nat) : State :=
  match b with
  | some b => { s with heap := upd s.heap b none }
  | none => s

/-- The buffers change places, and the input of the next stage is set. -/
def give (k n : Nat) (f : Frame) (bufB : Nat) : State :=
  { s with stdin := f.bufA, stdinLen := n }.setFrame k
    { f with
      left := f.left - 1
      bufA := some bufB
      bufB := f.bufA
      pc := .stage
      given := some (f.wrote.take (pipeBuf - 1)) }

/-- The next step of the call `k`; `ok` says whether memory is there, and whether the file may be written. -/
def go (k : Nat) (ok : Bool) : State :=
  let f := s.frames k
  match f.pc with
  | .enter => { s with stdin := none, stdinLen := 0 }.setFrame k { f with pc := .stage }
  | .stage =>
    let f := { f with esc := 0, wrote := [] }
    if f.capturing then
      match f.bufA with
      | some _ => s.setFrame k { f with pc := .begin }
      | none =>
        if ok then s.alloc.setFrame k { f with bufA := some s.next, pc := .begin }
        else s.setFrame k { f with pc := .leave }
    else s.setFrame k { f with pc := .run }
  | .begin =>
    match f.bufA with
    | some b => (s.begin b pipeBuf f.task).setFrame k { f with pc := .run }
    | none => s
  | .run => s.setFrame k { f with pc := if f.capturing then .stop else .leave }
  | .readLen p => s.setFrame k { f with pc := .readData p s.stdinLen }
  | .readData p n =>
    { s with inputs := s.inputs ++ [(some (s.readBuf p n), f.given)] }.setFrame k { f with pc := .run }
  | .stop =>
    { s with cap := none }.setFrame k { f with pc := if f.left = 0 then .file s.capLen else .hand s.capLen }
  | .file n =>
    match f.bufA, ok with
    | some b, true => { s with files := s.files ++ [(s.readBuf b n, f.wrote)] }.setFrame k { f with pc := .leave }
    | _, _ => s.setFrame k { f with pc := .leave }
  | .hand n =>
    match f.bufB with
    | some b => s.give k n f b
    | none => if ok then s.alloc.give k n f s.next else s.setFrame k { f with pc := .leave }
  | .leave => { s with stdin := none, stdinLen := 0 }.setFrame k { f with pc := .freeA, given := none }
  | .freeA => (s.free f.bufA).setFrame k { f with bufA := none, pc := .freeB }
  | .freeB => { s.free f.bufB with calls := upd s.calls f.task (s.calls f.task).tail }.setFrame k
      { f with bufB := none, pc := .done }
  | .done => s

end State

/-- What can happen in a task. -/
inductive Event
  /-- A line is run, at the prompt, as a job or by a command. -/
  | call (t left : Nat) (outfile : Option String)
  | go (t : Nat) (ok : Bool)
  | write (t : Nat) (out : Output)
  /-- The command looks for piped input. -/
  | read (t : Nat)

/-- Whether the task is free to do what a command does. -/
def State.runs (s : State) (t : Nat) : Bool :=
  match s.calls t with
  | [] => true
  | k :: _ => (s.frames k).pc = .run

def step (s : State) : Event → Option State
  | .call t left outfile =>
    if s.runs t then
      some { s with
        frames := upd s.frames s.nextFrame ⟨t, left, outfile, none, none, .enter, 0, [], none⟩
        nextFrame := s.nextFrame + 1
        calls := upd s.calls t (s.nextFrame :: s.calls t) }
    else none
  | .go t ok => match s.calls t with
    | [] => none
    | k :: _ => some (s.go k ok)
  | .write t out => if s.runs t then some ((s.note t out).output t out) else none
  | .read t => match s.calls t with
    | [] => some s
    | k :: _ =>
      let f := s.frames k
      if f.pc = .run then
        match s.stdin with
        | some p => some (s.setFrame k { f with pc := .readLen p })
        | none => some { s with inputs := s.inputs ++ [(none, f.given)] }
      else none

/-- No other call has handed an output on to a stage that has not ended. -/
def State.Only (s : State) (k : Nat) : Prop := ∀ j < s.nextFrame, j ≠ k → (s.frames j).given = none

/-- The capture takes what a command puts out as it is.  A write it always does.  A line and a blank line it does
where the buffer is full, or where no escape of a write is open, the line closes its own, and of a line that does not
fit the part that does has no escape in it or only escapes behind it. -/
def State.Takes (s : State) : Output → Prop
  | .write _ => True
  | .multi line =>
    let room := s.capSize - 1 - s.capLen
    room = 0 ∨ s.capEsc = 0 ∧ (texts 0 line).1 = 0 ∧
      ((texts 0 (line.take room)).2 = (texts 0 line).2 ∨ 0x1B ∉ line.take room)
  | .blank => s.capSize - 1 - s.capLen = 0 ∨ s.capEsc = 0

/-- No capture begins while one is open, and it takes what its task puts out; the piped input is set, and cleared, only while no other pipeline has
given one to a stage; and a stage that was given none reads none. -/
def Alone (s : State) : Event → Prop
  | .go t _ => ∀ k ∈ (s.calls t).head?, match (s.frames k).pc with
    | .begin => s.cap = none
    | .enter | .leave | .hand _ => s.Only k
    | _ => True
  | .write t out => (s.capturingHere t).isSome → s.Takes out
  | .read t => ∀ k ∈ (s.calls t).head?, (s.frames k).given = none → s.stdin = none
  | _ => True

/-- What was written to files is what the stages wrote, up to the size of the buffer, and what was seen as input
is what the stage before wrote. -/
def State.Faithful (s : State) : Prop :=
  (∀ r ∈ s.files, r.1 = (r.2.take (pipeBuf - 1)).map some) ∧
  ∀ r ∈ s.inputs, r.1 = r.2.map (List.map some)

end RPCortex.Pipeline
