import RPCortex.Lib.Run

/-! The queue of gestures, `novainput.cpp`.  The input task pushes what the hardware made, another task what it
injects, and the UI task takes it out and puts one back; every load and store of an index or a slot is a step. -/

namespace RPCortex.Gesture

open Lib

/-- `Event`, without `EV_NONE`. -/
inductive Event
  | rotCw
  | rotCcw
  | select
  | back
  | home
  | selectHold
  | homeHold
deriving DecidableEq

/-- `(i + 1) % QUEUE`. -/
def up (i : Nat) : Nat := (i + 1) % 32

/-- `(i + QUEUE - 1) % QUEUE`. -/
def down (i : Nat) : Nat := (i + 31) % 32

/-- Who pushes: the input task, or the task that injects. -/
inductive Task
  | input
  | inject
deriving DecidableEq

def Task.other : Task → Task
  | .input => .inject
  | .inject => .input

/-- Where a `push` is. -/
inductive Push
  | idle
  /-- `head_` was loaded, and `next` is known. -/
  | loaded (e : Event) (next : Nat)
  /-- `tail_` was loaded, and there is room. -/
  | room (e : Event) (next : Nat)
  /-- `head_` was loaded again. -/
  | at_ (e : Event) (next h : Nat)
  /-- The slot was stored. -/
  | stored (e : Event) (next : Nat)

/-- Past the test for room. -/
def Push.sure : Push → Bool
  | .idle => false
  | .loaded .. => false
  | _ => true

/-- Where the UI task is.  It alone writes `tail_`, so that its own loads of it need no step. -/
inductive Ui
  | idle
  /-- `next` has found the queue not empty. -/
  | take
  /-- `next` has loaded the slot. -/
  | taken (e : Event)
  /-- `unget` has found room. -/
  | back (e : Event) (prev : Nat)
  /-- `unget` has moved the tail. -/
  | put (e : Event)

/-- `Input`, what concerns the queue.  The rest is history: what the queue should hold, whether every answer was
what it should be, the events that found room or were put back, and the events that were returned. -/
structure Input where
  queue : Nat → Event
  head : Nat
  tail : Nat
  push : Task → Push
  ui : Ui
  waiting : List Event
  right : Bool
  accepted : List Event
  returned : List Event

namespace Input

/-- After `flush`. -/
def start (queue : Nat → Event) : Input where
  queue := queue
  head := 0
  tail := 0
  push := fun _ => .idle
  ui := .idle
  waiting := []
  right := true
  accepted := []
  returned := []

variable (s : Input)

/-- What is in the ring, by its indices. -/
def used : Nat := (s.head + 32 - s.tail) % 32

def contents : List Event := (List.range s.used).map fun i => s.queue ((s.tail + i) % 32)

/-- Whether some push is past its test. -/
def sure : Bool := (s.push .input).sure || (s.push .inject).sure

/-- The next step of a push. -/
def pushStep (t : Task) : Option Input :=
  match s.push t with
  | .idle => none
  | .loaded e next =>
    if next = s.tail then some { s with push := upd s.push t .idle }
    else some { s with push := upd s.push t (.room e next) }
  | .room e next => some { s with push := upd s.push t (.at_ e next s.head) }
  | .at_ e next h => some { s with queue := upd s.queue h e, push := upd s.push t (.stored e next) }
  | .stored e next => some { s with
      head := next
      push := upd s.push t .idle
      waiting := s.waiting ++ [e]
      accepted := s.accepted ++ [e] }

/-- `next` begins: the queue is empty, or there is something to take. -/
def next : Input :=
  if s.head = s.tail then { s with right := s.right && s.waiting.isEmpty } else { s with ui := .take }

/-- `pending`. -/
def pending : Input := { s with right := s.right && decide (s.head ≠ s.tail) == !s.waiting.isEmpty }

/-- `unget` begins: there is no room, or the place in front of the tail is taken. -/
def unget (e : Event) : Input := if down s.tail = s.head then s else { s with ui := .back e (down s.tail) }

/-- The next step of what the UI task has begun. -/
def uiStep : Option Input :=
  match s.ui with
  | .idle => none
  | .take => some { s with ui := .taken (s.queue s.tail) }
  | .taken e => some { s with
      tail := up s.tail
      ui := .idle
      waiting := s.waiting.tail
      right := s.right && decide (s.waiting.head? = some e)
      returned := s.returned ++ [e] }
  | .back e prev => some { s with tail := prev, ui := .put e }
  | .put e => some { s with
      queue := upd s.queue s.tail e
      ui := .idle
      waiting := e :: s.waiting
      accepted := s.accepted ++ [e] }

end Input

inductive Action
  | push (t : Task) (e : Event)
  | pushes (t : Task)
  | next
  | pending
  | unget (e : Event)
  | ui

def Ui.isIdle : Ui → Bool
  | .idle => true
  | _ => false

def Push.isIdle : Push → Bool
  | .idle => true
  | _ => false

/-- A step of one of the tasks. -/
def step (s : Input) : Action → Option Input
  | .push t e => if (s.push t).isIdle then some { s with push := upd s.push t (.loaded e (up s.head)) } else none
  | .pushes t => s.pushStep t
  | .next => if s.ui.isIdle then some s.next else none
  | .pending => if s.ui.isIdle then some s.pending else none
  | .unget e => if s.ui.isIdle then some (s.unget e) else none
  | .ui => s.uiStep

/-- Whether the push is about to test for room. -/
def Push.tests : Push → Bool
  | .loaded .. => true
  | _ => false

/-- Whether `unget` has found room, and has not moved the tail. -/
def Ui.backs : Ui → Bool
  | .back .. => true
  | _ => false

/-- There are two places when an `unget` and a push test for room while the other is past its test, and no push
begins while another is under way. -/
def Roomy (s : Input) : Action → Prop
  | .push t _ => (s.push t.other).isIdle = true
  | .pushes t => (s.push t).tests = true → s.ui.backs = true → s.used + 2 < 32
  | .unget _ => s.sure = true → s.used + 2 < 32
  | _ => True

instance (s : Input) (a : Action) : Decidable (Roomy s a) := by
  unfold Roomy
  cases a <;> infer_instance

/-- Whether `unget` has moved the tail to a slot that it has not stored. -/
def Ui.puts : Ui → Bool
  | .put _ => true
  | _ => false

end RPCortex.Gesture
