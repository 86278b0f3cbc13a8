import RPCortex.Gesture.Queue

/-! The stack of screens with the lock on it, `novagui.cpp`, `novagui_ops.cpp` and `novakeys.cpp`.  The lock and its
two entry screens are modelled; what every other screen does is a parameter, and may be anything. -/

namespace RPCortex.Panel

open Lib Gesture

/-- `Action` of a screen. -/
inductive Answer
  | stay
  | back
  | home
deriving DecidableEq

/-! ### The keyboard -/

/-- `KeyboardScreen`, the password lock's entry. -/
structure Keyboard where
  text : List UInt8
  sel : Nat
  shift : Bool
  caret : Bool
  blink : Nat

def Keyboard.begin_ : Keyboard := ⟨[], 0, false, true, 0⟩

/-- `KB_ROWS * KB_COLS`. -/
def kbKeys : Nat := 40

/-- `key_count`. -/
def keyCount : Nat := kbKeys + 4

/-- `TEXT_MAX`. -/
def textMax : Nat := 64

/-- `kRows`. -/
def kRows : List UInt8 := "abcdefghijklmnopqrstuvwxyz.-_@0123456789".toList.map fun c => c.toNat.toUInt8

namespace Keyboard

variable (k : Keyboard)

/-- `type`. -/
def type (ch : UInt8) : Keyboard :=
  if textMax ≤ k.text.length + 1 then k
  else { k with text := k.text ++ [if k.shift && 0x61 ≤ ch && ch ≤ 0x7A then ch - 32 else ch] }

/-- `backspace`. -/
def backspace : Keyboard := { k with text := k.text.dropLast }

def tick (dt : Nat) : Keyboard :=
  if k.blink + dt < 450 then { k with blink := k.blink + dt } else { k with blink := 0, caret := !k.caret }

/-- `on_event`, with the text that it hands over. -/
def onEvent : Event → Keyboard × Answer × Option (List UInt8)
  | .rotCw => ({ k with sel := (k.sel + 1) % keyCount }, .stay, none)
  | .rotCcw => ({ k with sel := (k.sel + keyCount - 1) % keyCount }, .stay, none)
  | .selectHold => (k, .back, some k.text)
  | .select =>
    if k.sel < kbKeys then (k.type (kRows.getD k.sel 0), .stay, none)
    else if k.sel = kbKeys then ({ k with shift := !k.shift }, .stay, none)
    else if k.sel = kbKeys + 1 then (k.type 0x20, .stay, none)
    else if k.sel = kbKeys + 2 then (k.backspace, .stay, none)
    else (k, .back, some k.text)
  | .back => if k.text = [] then (k, .back, none) else (k.backspace, .stay, none)
  | .home => (k, .home, none)
  | .homeHold => (k, .stay, none)

end Keyboard

/-! ### The PIN pad -/

/-- `PinScreen`. -/
structure Pin where
  digit : List Nat
  pos : Nat

def Pin.begin_ : Pin := ⟨[0, 0, 0, 0, 0, 0], 0⟩

namespace Pin

variable (p : Pin)

def text : List UInt8 := p.digit.map fun d => (0x30 + d).toUInt8

def turn (by_ : Nat) : Pin := { p with digit := p.digit.set p.pos ((p.digit.getD p.pos 0 + by_) % 10) }

/-- `on_event`, with the text that it hands over. -/
def onEvent : Event → Pin × Answer × Option (List UInt8)
  | .rotCw => (p.turn 1, .stay, none)
  | .rotCcw => (p.turn 9, .stay, none)
  | .select => ({ p with pos := (p.pos + 1) % 6 }, .stay, none)
  | .home => (p, .back, some p.text)
  | .selectHold => (p, .back, some p.text)
  | .back => if 0 < p.pos then ({ p with pos := p.pos - 1 }, .stay, none) else (p, .back, none)
  | .homeHold => (p, .stay, none)

end Pin

/-! ### The lock -/

/-- `Lock_Kind`, as far as `lock_state` tells it. -/
inductive Kind
  | password
  | pin
  | other
deriving DecidableEq

/-- The registry keys of the lock. -/
structure LockReg where
  kind : Kind
  pass : List UInt8
  pin : List UInt8

/-- `lock_state`. -/
def LockReg.state (r : LockReg) : Kind :=
  match r.kind with
  | .password => if r.pass = [] then .other else .password
  | .pin => if r.pin = [] then .other else .pin
  | .other => .other

/-- `lock_armed`. -/
def LockReg.armed (r : LockReg) : Bool := r.state ≠ .other

/-- What `lock_typed` compares with. -/
def LockReg.want (r : LockReg) : List UInt8 := if r.state = .password then r.pass else r.pin

/-- A screen: the lock, one of its entry screens, or any other. -/
inductive Screen (β : Type)
  | other (b : β)
  | lock
  | keyboard (k : Keyboard)
  | pin (p : Pin)

/-- The runner's state, with the screens from the top down.  History: whether a screen other than these three has
been handed a gesture, a tick, a leave or an enter, and whether the power menu was opened. -/
structure Gui (β : Type) where
  stack : List (Screen β)
  reg : LockReg
  locked : Bool
  lockPass : Bool
  lockTries : Nat
  lockDepth : Nat
  active : Bool
  turned : Bool
  touched : Bool
  power : Bool

/-- What the other screens do. -/
structure Apps (β : Type) where
  onEvent : β → Event → Gui β → Gui β × Answer
  tick : β → Nat → Gui β → Gui β
  enter : β → β
  leave : β → β
  modal : β → Bool
  isPower : β → Bool
  openPower : Gui β → Gui β

/-- `STACK_MAX`. -/
def stackMax : Nat := 8

variable {β : Type} (apps : Apps β)

/-- `modal`. -/
def Screen.modal : Screen β → Bool
  | .other b => apps.modal b
  | .lock => true
  | .keyboard _ => false
  | .pin _ => false

namespace Gui

variable (s : Gui β)

/-- `leave` and `enter` of the screen on top; those of the lock and its entry screens do nothing. -/
def onTop (f : β → β) : Gui β :=
  match s.stack with
  | .other b :: below => { s with stack := .other (f b) :: below, touched := true }
  | _ => s

/-- `push`, when there is a slot. -/
def push (screen : Screen β) : Gui β :=
  let s := s.onTop apps.leave
  { s with stack := screen :: s.stack }

/-- `pop`. -/
def pop : Gui β :=
  if s.stack.length ≤ 1 then s
  else
    let s := s.onTop apps.leave
    { s with stack := s.stack.tail }.onTop apps.enter

/-- `lock_floor`. -/
def lockFloor : Nat := if s.locked then s.lockDepth else 1

/-- `go_home`. -/
def goHome : Gui β := (pop apps)^[s.stack.length - max s.lockFloor 1] s

/-- `lock_typed`. -/
def lockTyped (text : List UInt8) : Gui β :=
  if s.reg.want ≠ [] ∧ text = s.reg.want then { s with lockPass := true } else { s with lockTries := s.lockTries + 1 }

/-- `lock_engage`. -/
def lockEngage : Gui β :=
  if s.locked || !s.reg.armed then s
  else if (s.stack.head?.map (Screen.modal apps)).getD false then s
  else if stackMax ≤ s.stack.length then { s with lockPass := false }
  else
    let s := { s with lockPass := false }.push apps .lock
    { s with locked := true, lockDepth := s.stack.length }

/-- The text that is handed to `lock_typed`, if there is one. -/
def typed (text : Option (List UInt8)) : Gui β :=
  match text with
  | none => s
  | some text => s.lockTyped text

/-- `on_event` of the screen on top. -/
def onEvent (e : Event) : Gui β × Answer :=
  match s.stack with
  | [] => (s, .stay)
  | .other b :: _ =>
    let (s, a) := apps.onEvent b e s
    ({ s with touched := true }, a)
  | .lock :: _ =>
    if (e = .select ∨ e = .selectHold) ∧ s.stack.length < stackMax then
      if s.reg.state = .password then (s.push apps (.keyboard .begin_), .stay)
      else (s.push apps (.pin .begin_), .stay)
    else (s, .stay)
  | .keyboard k :: below =>
    let (k, a, text) := k.onEvent e
    ({ s with stack := .keyboard k :: below }.typed text, a)
  | .pin p :: below =>
    let (p, a, text) := p.onEvent e
    ({ s with stack := .pin p :: below }.typed text, a)

/-- What the gesture hands to `lock_typed`. -/
def submits (e : Event) : Option (List UInt8) :=
  match s.stack with
  | .keyboard k :: _ => (k.onEvent e).2.2
  | .pin p :: _ => (p.onEvent e).2.2
  | _ => none

def isTurn : Event → Bool
  | .rotCw => true
  | .rotCcw => true
  | _ => false

/-- The power menu, when it is not on top. -/
def openPower : Gui β :=
  let power := match s.stack with
    | .other b :: _ => apps.isPower b
    | _ => false
  if power then s
  else
    let s := if stackMax - 1 ≤ s.stack.length then s.goHome apps else s
    { apps.openPower s with power := true }

/-- What is done with the answer of a screen. -/
def answer (modal : Bool) (e : Event) (a : Answer) : Gui β :=
  match (if e = .home ∧ a ≠ .home ∧ modal = false then .home else a) with
  | .stay => s
  | .back => s.pop apps
  | .home => s.goHome apps

/-- What `drain_input` does with a gesture: it wakes a dark panel, opens the power menu, or goes to the screen on
top. -/
def handle (e : Event) : Gui β :=
  if !s.active then { s with active := true }
  else if e = .homeHold ∧ s.locked = false then s.openPower apps
  else
    match s.stack with
    | [] => s
    | top :: _ =>
      let (s, a) := s.onEvent apps e
      s.answer apps (top.modal apps) e a

/-- The body of the loop of `drain_input`, for a gesture that `next` has returned.  A second turn goes back to the
queue. -/
def gesture (e : Event) : Gui β :=
  if isTurn e && s.turned then s else { s with turned := s.turned || isTurn e }.handle apps e

/-- `tick` of the screen on top. -/
def tick (dt : Nat) : Gui β :=
  match s.stack with
  | [] => s
  | .other b :: _ => { apps.tick b dt s with touched := true }
  | .lock :: _ =>
    if s.lockPass = false ∧ s.reg.armed = true then s
    else { s with lockPass := false, locked := false, lockDepth := 1, lockTries := 0 }.pop apps
  | .keyboard k :: below => { s with stack := .keyboard (k.tick dt) :: below }
  | .pin _ :: _ => s

end Gui

/-- What the runner does, and what may change the lock's keys. -/
inductive Action
  /-- `drain_input` begins. -/
  | drain (wake : Bool)
  | gesture (e : Event)
  | tick (dt : Nat)
  /-- `frame_step`: what the level of the panel is then, and whether the time of the lock has come. -/
  | frame (active due : Bool)
  | configure (reg : LockReg)

def step (s : Gui β) : Action → Option (Gui β)
  | .drain wake => some { s with turned := false, active := s.active || wake }
  | .gesture e => some (s.gesture apps e)
  | .tick dt => some (s.tick apps dt)
  | .frame active due =>
    let s := { s with active := active }
    some (if due then s.lockEngage apps else s)
  | .configure reg => some { s with reg := reg }

/-- A code stays configured, and what is entered on a lit panel is not the code. -/
def Guarded (s : Gui β) : Action → Prop
  | .gesture e => s.active = true → s.submits e ≠ some s.reg.want
  | .configure reg => reg.armed = true
  | _ => True

instance (s : Gui β) (a : Action) : Decidable (Guarded s a) := by
  unfold Guarded
  cases a <;> infer_instance

end RPCortex.Panel
