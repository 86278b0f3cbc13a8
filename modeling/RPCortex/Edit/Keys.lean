import RPCortex.Edit.Buffer

/-! Editing, `editor.cpp`: what each key and each mouse event does between two refreshes of the screen. -/

namespace RPCortex.Edit

open Lib

def memmove (row : Row) (dst src n : Nat) : Row := fun i =>
  if dst ≤ i ∧ i < dst + n then row (src + (i - dst)) else row i

namespace Editor

variable (e : Editor)

/-- The line under the cursor.  `Ok` is noted wherever a handler uses it; when it fails nothing is promised of
what follows. -/
def line : Row := e.ls.row e.cy.toNat

def len : Nat := strlen e.line

/-- The cursor is in the text. -/
def InText : Prop := 0 ≤ e.cy ∧ e.cy < e.count ∧ 0 ≤ e.cx ∧ e.cx ≤ e.len

/-- Every line in use is allocated, and ends in its buffer. -/
def Neat : Prop := ∀ i < e.count, i < edMaxLines ∧ e.ls.chunk (i / lsLinesPerChunk) = true ∧ strlen (e.ls.row i) < edMaxCol

instance : Decidable e.InText := inferInstanceAs (Decidable (_ ∧ _ ∧ _ ∧ _))

instance : Decidable e.Neat := inferInstanceAs (Decidable (∀ i < e.count, _))

def setLine (row : Row) : Editor := { e with ls := { e.ls with row := upd e.ls.row e.cy.toNat row } }

/-- `ed_clamp`. -/
def edClamp (rows cols : Int) : Editor :=
  let cy := if e.cy < 0 then 0 else e.cy
  let cy : Int := if (e.count : Int) ≤ cy then (e.count : Int) - 1 else cy
  let e := { e with cy := cy }
  let cx : Int := if (e.len : Int) < e.cx then (e.len : Int) else e.cx
  let cx := if cx < 0 then 0 else cx
  let top := if cy < e.top then cy else e.top
  let top := if top + rows ≤ cy then cy - rows + 1 else top
  let left := if cx < e.left then cx else e.left
  let left := if left + cols ≤ cx then cx - cols + 1 else left
  { e with cx := cx, top := if top < 0 then 0 else top, left := if left < 0 then 0 else left }

end Editor

/-- The loop of `cmd_edit`.  History: whether the cursor was in a neat text at every use of the buffer and no
length was negative, whether a move has left it outside the text, and whether a save has written the file. -/
structure Session where
  e : Editor
  rows : Int
  cols : Int
  quitArmed : Bool
  lastWasCr : Bool
  running : Bool
  sane : Bool
  strayed : Bool
  wrote : Bool

def Session.start (e : Editor) (rows cols : Int) : Session :=
  ⟨e, rows, cols, false, false, true, true, false, false⟩

namespace Session

variable (s : Session)

/-- A handler uses the buffer. -/
def look : Session := { s with sane := s.sane && decide (s.e.InText ∧ s.e.Neat) }

/-- It moves `n` bytes. -/
def moves (n : Int) : Session := { s with sane := s.sane && decide (0 ≤ n) }

/-- The cursor was moved without a look at the text. -/
def moved (e : Editor) : Session := { s with e := e, strayed := !decide e.InText }

/-- `ed_insert`. -/
def edInsert (c : UInt8) : Session :=
  let s := s.look
  let e := s.e
  if edMaxCol ≤ e.len + 1 then s
  else
    let n : Int := e.len - e.cx + 1
    let row := memmove e.line (e.cx + 1).toNat e.cx.toNat n.toNat
    { s.moves n with e := { e.setLine (upd row e.cx.toNat c) with cx := e.cx + 1, dirty := true } }

/-- `ed_backspace`; the rows below a joined line move up one by one, the upper ones first. -/
def edBackspace : Session :=
  let s := s.look
  let e := s.e
  if 0 < e.cx then
    let n : Int := e.len - e.cx + 1
    let row := memmove e.line (e.cx - 1).toNat e.cx.toNat n.toNat
    { s.moves n with e := { e.setLine row with cx := e.cx - 1, dirty := true } }
  else if e.cy = 0 then s
  else
    let above := (e.cy - 1).toNat
    let up := e.ls.row above
    let ulen := strlen up
    if edMaxCol ≤ ulen + e.len then s
    else
      let joined : Row := fun i => if ulen ≤ i ∧ i < ulen + (e.len + 1) then e.line (i - ulen) else up i
      let rows := upd e.ls.row above joined
      let rows : Nat → Row := fun i => if e.cy ≤ i ∧ i + 1 < e.count then rows (i + 1) else rows i
      { s with e := { e with
          ls := { e.ls with row := rows }
          count := e.count - 1
          cy := e.cy - 1
          cx := ulen
          dirty := true } }

/-- `ed_newline`; the rows below move down one by one, the lower ones first. -/
def edNewline (room : Nat → Bool) : Session :=
  if edMaxLines ≤ s.e.count + 1 then s
  else
    match s.e.ls.line s.e.count room with
    | none => s
    | some ls =>
      let s := s.look
      let e := s.e
      let rows : Nat → Row := fun i => if e.cy + 1 < i ∧ i ≤ e.count then ls.row (i - 1) else ls.row i
      let here := e.cy.toNat
      let tail := min (e.len - e.cx).toNat (edMaxCol - 1)
      let next : Row := fun i =>
        if i < tail then rows here (e.cx.toNat + i) else if i = tail then 0 else rows (here + 1) i
      let rows := upd rows (here + 1) next
      { s with e := { e with
          ls := { ls with row := upd rows here (upd (rows here) e.cx.toNat 0) }
          count := e.count + 1
          cy := e.cy + 1
          cx := 0
          dirty := true } }

end Session

inductive Mouse
  | wheelUp
  | wheelDown
  | down (x y : Nat)
  | other

/-- A key; what the heap, the file system and the terminal answer comes with it. -/
inductive Key
  | up
  | down
  | left
  | right
  | home
  | end_
  | pgUp
  | pgDn
  | delete
  | save (opens ok : Bool)
  | quit
  | cr (room : Nat → Bool)
  | lf (room : Nat → Bool)
  | backspace
  | tab
  | refresh (size : Option (Int × Int))
  | char (code : Nat)

inductive Event
  /-- The loop comes round, and clamps the cursor. -/
  | turn
  | mouse (m : Mouse)
  | key (k : Key)

namespace Session

variable (s : Session)

/-- A mouse event. -/
def mouse (m : Mouse) : Session :=
  let s := match m with
    | .wheelUp => { s with e := { s.e with top := s.e.top - 3 } }
    | .wheelDown => { s with e := { s.e with top := s.e.top + 3 } }
    | .down x y =>
      if 1 ≤ y ∧ (y : Int) ≤ s.rows then s.moved { s.e with cy := s.e.top + y - 1, cx := s.e.left + x } else s
    | .other => s
  let top := if s.e.top < 0 then 0 else s.e.top
  { s with e := { s.e with top := if (s.e.count : Int) - 1 < top then s.e.count - 1 else top } }

/-- The switch over the keys. -/
def press : Key → Session
  | .up => s.moved { s.e with cy := s.e.cy - 1 }
  | .down => s.moved { s.e with cy := s.e.cy + 1 }
  | .left =>
    if s.e.cx ≠ 0 then s.moved { s.e with cx := s.e.cx - 1 }
    else if s.e.cy ≠ 0 then
      let s := { s with e := { s.e with cy := s.e.cy - 1 } }.look
      { s with e := { s.e with cx := s.e.len } }
    else s
  | .right =>
    let s := s.look
    if s.e.cx < s.e.len then { s with e := { s.e with cx := s.e.cx + 1 } }
    else if s.e.cy < (s.e.count : Int) - 1 then { s with e := { s.e with cy := s.e.cy + 1, cx := 0 } }
    else s
  | .home => s.moved { s.e with cx := 0 }
  | .end_ =>
    let s := s.look
    { s with e := { s.e with cx := s.e.len } }
  | .pgUp => s.moved { s.e with cy := s.e.cy - (s.rows - 1) }
  | .pgDn => s.moved { s.e with cy := s.e.cy + (s.rows - 1) }
  | .delete =>
    let s := s.look
    if s.e.cx < s.e.len then { s with e := { s.e with cx := s.e.cx + 1 } }.edBackspace
    else if s.e.cy < (s.e.count : Int) - 1 then { s with e := { s.e with cy := s.e.cy + 1, cx := 0 } }.edBackspace
    else s
  | .save opens ok =>
    if s.e.truncated || !opens then s
    else { s.look with e := { s.e with dirty := s.e.dirty && !ok }, wrote := true }
  | .quit =>
    if s.e.dirty then { s with running := s.running && !s.quitArmed, quitArmed := true }
    else { s with running := false }
  | .cr room => { s.edNewline room with lastWasCr := true }
  | .lf room => if s.lastWasCr then s else s.edNewline room
  | .backspace => s.edBackspace
  | .tab => (((s.edInsert 0x20).edInsert 0x20).edInsert 0x20).edInsert 0x20
  | .refresh size => match size with
    | some (rows, cols) => { s with rows := rows, cols := cols }
    | none => s
  | .char code => if 32 ≤ code ∧ code < 127 then s.edInsert code.toUInt8 else s

/-- A key event; only the key to quit leaves quitting armed, and only a carriage return is remembered. -/
def key (k : Key) : Session :=
  let s := s.press k
  let s := match k with
    | .quit => s
    | _ => { s with quitArmed := false }
  match k with
  | .cr _ => s
  | _ => { s with lastWasCr := false }

/-- `ed_newline` does not refuse: the file may have one more line, and there is memory for it. -/
def opens (room : Nat → Bool) : Bool :=
  s.e.count + 1 < edMaxLines && (s.e.ls.line s.e.count room).isSome

/-- Whether the handler of the event uses the buffer. -/
def uses : Event → Bool
  | .turn => false
  | .mouse _ => false
  | .key k => match k with
    | .left => s.e.cx = 0 && s.e.cy ≠ 0
    | .right | .end_ | .delete | .backspace | .tab => true
    | .save opens _ => !s.e.truncated && opens
    | .cr room => s.opens room
    | .lf room => !s.lastWasCr && s.opens room
    | .char code => 32 ≤ code && code < 127
    | _ => false

end Session

def step (s : Session) : Event → Option Session
  | .turn => if s.running then some { s with e := s.e.edClamp s.rows s.cols, strayed := false } else none
  | .mouse m => some (s.mouse m)
  | .key k => some (s.key k)

/-- No event that uses the buffer comes while a move has left the cursor outside the text. -/
def Settled (s : Session) (event : Event) : Prop := s.uses event = true → s.strayed = false

instance (s : Session) (event : Event) : Decidable (Settled s event) :=
  inferInstanceAs (Decidable (_ → _))

end RPCortex.Edit
