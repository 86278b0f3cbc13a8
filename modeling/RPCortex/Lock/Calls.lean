import RPCortex.Lib.Run

/-! Locks, `lock.cpp`, with the count of critical sections in `task.cpp`.  A core runs a task, or, before
`task_init`, the thread that becomes the first one.  What a call does under the hardware lock is one step; a
task changes cores only where it yields, and the watchdog ends it only while its count is zero. -/

namespace RPCortex.Lock

open Lib

/-- `PRE_INIT_OWNER`. -/
def preInitOwner : Int := -2

/-- `RpcLock`. -/
structure RpcLock where
  owner : Int
  depth : Nat
  waits : Nat

/-- How far a task is in the calls; `again` says that `lock_acquire` calls `lock_try`. -/
inductive Call (L : Type)
  | idle
  /-- `lock_try` has read who it is. -/
  | enter (l : L) (again : Bool) (self : Int)
  /-- `lock_try` has marked the task. -/
  | take (l : L) (again : Bool) (self : Int)
  | refused (l : L) (again : Bool)
  /-- `lock_acquire` yields before it tries again. -/
  | wait (l : L)
  | free (l : L)
  /-- `lock_release` has given back a level. -/
  | leave

/-- Whether the call has marked the task and has no level to show for it. -/
def Call.counted {L : Type} : Call L → Nat
  | .take .. | .refused .. | .leave => 1
  | _ => 0

/-- The state.  `got` and `marks` are history: by task, the levels of each lock that it was given and has not
given back, and the other critical sections it is in. -/
structure State (L : Type) where
  up : Bool
  nextPid : Nat
  current : Fin 2 → Option Nat
  ended : Nat → Bool
  preInitCrit : Nat
  crit : Nat → Nat
  locks : L → RpcLock
  call : Nat → Call L
  got : Nat → L → Nat
  marks : Nat → Nat

/-- The device before `task_init`. -/
def start (L : Type) : State L where
  up := false
  nextPid := 1
  current := fun _ => none
  ended := fun _ => false
  preInitCrit := 0
  crit := fun _ => 0
  locks := fun _ => ⟨0, 0, 0⟩
  call := fun _ => .idle
  got := fun _ _ => 0
  marks := fun _ => 0

namespace State

variable {L : Type} (s : State L) (c : Fin 2)

/-- `task_self`. -/
def taskSelf : Int :=
  match s.current c with
  | some pid => pid
  | none => -1

/-- `me`. -/
def me : Int := if 0 < s.taskSelf c then s.taskSelf c else preInitOwner

/-- The count that `task_crit_enter` and its siblings use on the core. -/
def critAt : Nat :=
  match s.current c with
  | some pid => s.crit pid
  | none => s.preInitCrit

def setCrit (n : Nat) : State L :=
  match s.current c with
  | some pid => { s with crit := upd s.crit pid n }
  | none => { s with preInitCrit := n }

/-- `task_crit_enter`. -/
def critEnter : State L := s.setCrit c ((s.critAt c + 1) % 2 ^ 32)

/-- `task_crit_leave`. -/
def critLeave : State L := if s.critAt c = 0 then s else s.setCrit c (s.critAt c - 1)

/-- The task that runs on the core; before `task_init` that is the thread of the start, on core 0. -/
def runs : Option Nat :=
  match s.current c with
  | some pid => some pid
  | none => if s.up = false ∧ c = 0 then some 1 else none

def setCall (t : Nat) (k : Call L) : State L := { s with call := upd s.call t k }

/-- The task on the core, when it is in none of the calls. -/
def idle : Option Nat :=
  (s.runs c).filter fun t => match s.call t with
    | .idle => true
    | _ => false

/-- Whether the core can change to another task: its own is between calls, or yields. -/
def yields : Bool :=
  match s.current c with
  | none => true
  | some t => match s.call t with
    | .idle | .wait _ => true
    | _ => false

/-- Whether a task can be put on the core. -/
def ready (t : Nat) : Bool := 1 ≤ t ∧ t < s.nextPid ∧ s.ended t = false ∧ s.current (1 - c) ≠ some t

variable [DecidableEq L]

def setLock (l : L) (k : RpcLock) : State L := { s with locks := upd s.locks l k }

def setGot (t : Nat) (l : L) (n : Nat) : State L := { s with got := upd s.got t (upd (s.got t) l n) }

/-- The section of `lock_try` under the hardware lock. -/
def tryTake (t : Nat) (l : L) (again : Bool) (self : Int) : State L :=
  if (s.locks l).owner = 0 then
    ((s.setLock l { s.locks l with owner := self, depth := 1 }).setGot t l (s.got t l + 1)).setCall t .idle
  else if (s.locks l).owner = self then
    ((s.setLock l { s.locks l with depth := ((s.locks l).depth + 1) % 2 ^ 32 }).setGot t l
      (s.got t l + 1)).setCall t .idle
  else s.setCall t (.refused l again)

/-- The section of `lock_release` under the hardware lock. -/
def tryFree (t : Nat) (l : L) : State L :=
  if (s.locks l).owner = s.me c ∧ 0 < (s.locks l).depth then
    ((s.setLock l { s.locks l with
      depth := (s.locks l).depth - 1
      owner := if (s.locks l).depth - 1 = 0 then 0 else (s.locks l).owner }).setGot t l
        (s.got t l - 1)).setCall t .leave
  else (s.setGot t l (s.got t l - 1)).setCall t .idle

/-- The next step of the call that the task `t` is in. -/
def proceed (t : Nat) : State L :=
  match s.call t with
  | .idle => s
  | .enter l again self => (s.critEnter c).setCall t (.take l again self)
  | .take l again self => s.tryTake t l again self
  | .refused l true =>
    ((s.critLeave c).setLock l { s.locks l with waits := ((s.locks l).waits + 1) % 2 ^ 32 }).setCall t (.wait l)
  | .refused _ false => (s.critLeave c).setCall t .idle
  | .wait l => s.setCall t (.enter l true (s.me c))
  | .free l => s.tryFree c t l
  | .leave => (s.critLeave c).setCall t .idle

end State

/-- What can happen on the core `c`. -/
inductive Event (L : Type)
  | lockTry (c : Fin 2) (l : L)
  | lockAcquire (c : Fin 2) (l : L)
  | lockRelease (c : Fin 2) (l : L)
  /-- The call that the task is in goes on. -/
  | go (c : Fin 2)
  /-- Another critical section begins, and ends. -/
  | critEnter (c : Fin 2)
  | critLeave (c : Fin 2)
  | taskInit
  | spawn
  | reschedule (c : Fin 2) (next : Option Nat)
  /-- The watchdog sends the task to `task_forced_exit`. -/
  | force (c : Fin 2)
  | taskExit (c : Fin 2)

variable {L : Type} [DecidableEq L]

def step (s : State L) : Event L → Option (State L)
  | .lockTry c l => (s.idle c).map fun t => s.setCall t (.enter l false (s.me c))
  | .lockAcquire c l => (s.idle c).map fun t => s.setCall t (.enter l true (s.me c))
  | .lockRelease c l => (s.idle c).map fun t => s.setCall t (.free l)
  | .go c => (s.runs c).map fun t => s.proceed c t
  | .critEnter c => (s.idle c).map fun t => { s.critEnter c with marks := upd s.marks t (s.marks t + 1) }
  | .critLeave c => ((s.idle c).filter fun t => 0 < s.marks t).map fun t =>
      { s.critLeave c with marks := upd s.marks t (s.marks t - 1) }
  | .taskInit => if s.up then none else (s.idle 0).map fun _ =>
      { s with up := true, nextPid := 2, current := upd (fun _ => none) 0 (some 1), crit := fun _ => 0 }
  | .spawn => if s.up then
      some { s with nextPid := s.nextPid + 1, crit := upd s.crit s.nextPid 0 }
    else none
  | .reschedule c next => if s.up ∧ s.yields c ∧ ∀ t ∈ next, s.ready c t then
      some { s with current := upd s.current c next }
    else none
  | .force c => ((s.current c).filter fun _ => s.critAt c = 0).map fun t => s.setCall t .idle
  | .taskExit c => if s.up then (s.idle c).map fun t =>
      { s with ended := upd s.ended t true, current := upd s.current c none }
    else none

/-- Whether the task has a level of the lock. -/
def State.Holds (s : State L) (t : Nat) (l : L) : Prop := 0 < s.got t l

/-- The levels that the task has, and the critical sections it is in. -/
def State.load [Fintype L] (s : State L) (t : Nat) : Nat :=
  ∑ l, s.got t l + s.marks t + (s.call t).counted

/-- The owner that `me` is for a task. -/
def State.ident (s : State L) (t : Nat) : Int := if s.up then t else preInitOwner

/-- The count of the task. -/
def State.count (s : State L) (t : Nat) : Nat := if s.up then s.crit t else s.preInitCrit

/-- A task that there is. -/
def State.Known (s : State L) (t : Nat) : Prop := if s.up then 1 ≤ t ∧ t < s.nextPid else t = 1

/-- The levels of the lock that it says the task has. -/
def State.levels (s : State L) (t : Nat) (l : L) : Nat :=
  if (s.locks l).owner = s.ident t then (s.locks l).depth else 0

/-- Whether the event is the start of the scheduler. -/
def Event.starts : Event L → Bool
  | .taskInit => true
  | _ => false

/-- The scheduler starts while no lock is held and no critical section is open, and counts stay below
`2 ^ 32`. -/
def Steady [Fintype L] (s : State L) (e : Event L) : Prop :=
  (e.starts = true → (∀ l, s.got 1 l = 0) ∧ s.marks 1 = 0) ∧
  ∀ c, ∀ t ∈ s.runs c, s.load t + 1 < 2 ^ 32

instance [Fintype L] (s : State L) (e : Event L) : Decidable (Steady s e) :=
  inferInstanceAs (Decidable (_ ∧ _))

end RPCortex.Lock
