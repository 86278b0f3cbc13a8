import RPCortex.Lib.Run

/-! The state of the task scheduler of `core/task.cpp` on two cores: the task table, what each core
is executing and where in the scheduler's code it stands, and the globals that both cores share.
Fields that no modelled function reads (names, statistics, the protection regions) are left out.
Ghost components are marked; no step of the code's own data depends on them. -/

namespace RPCortex.Sched

open Lib

/-- `TASK_MAX`. -/
abbrev taskMax : Nat := 12

instance : NeZero taskMax := ⟨by decide⟩

/-- An index into `g_tasks`. -/
abbrev Slot := Fin taskMax

/-- `MAX_CORES`. -/
abbrev maxCores : Nat := 2

instance : NeZero maxCores := ⟨by decide⟩

/-- A processor core. -/
abbrev Core := Fin maxCores

inductive TaskState
  | free | ready | running | sleeping | blocked | done
  deriving DecidableEq, Repr

inductive TaskAffinity
  | any | core0 | core1
  deriving DecidableEq, Repr

/-- A saved stack pointer: the context that was saved and which of its parks saved it.  A context
is numbered by the stack it stands on, and `none` is a core's own scheduler context.  The two
numbers stand for the address, which no step computes with. -/
structure Sp where
  owner : Option Nat
  park : Nat
  deriving DecidableEq, Repr

/-- `Task`, with `info` flattened.  `stackRaw` is the stack that must be given back to the heap,
null for the adopted main task.  Ghost: `inst` is the context the slot was last filled with. -/
structure Task where
  pid : Int
  state : TaskState
  affinity : TaskAffinity
  killRequested : Bool
  wakeAt : BitVec 32
  sp : Sp
  stackRaw : Option Nat
  live : Bool
  inst : Option Nat
  deriving DecidableEq, Repr

/-- The function that looks a pid up with `slot_of`. -/
inductive Job
  | kill | reap
  deriving DecidableEq, Repr

/-- Where `task_kill` stands once it has its slot: each read and write is a step. -/
inductive KillPc
  | idle | shell | finished | request | asleep | wake | ready
  deriving DecidableEq, Repr

/-- Where `task_reap` stands once it has its slot. -/
inductive ReapPc
  | finished | takeStack | release (stack : Nat) | dropStack | free
  deriving DecidableEq, Repr

/-- Where `task_spawn` stands once it has reserved its slot.  The `zero` steps are the `memset` of
`info`, in the order of the fields. -/
inductive SpawnPc
  | release (stack : Nat) | alloc | abandon
  | zeroPid | zeroState | zeroAffinity | zeroKill
  | fetchPid | storePid | setPid | setAffinity | setStack | setLive | setSp | publish | report
  deriving DecidableEq, Repr

/-- The locals of `task_spawn`: the slot, the stack that `malloc` returned and the pid taken from
`g_next_pid`. -/
structure Spawning where
  affinity : TaskAffinity
  slot : Slot
  stack : Nat
  pid : Int
  deriving DecidableEq, Repr

/-- Where a core stands.  Between two steps it is in `user`, the code of the context it executes,
or part-way through one of the scheduler's functions. -/
inductive Pc
  | user
  /-- `reschedule` was called and has not taken the guard. -/
  | sched (parkAs : TaskState)
  /-- In the loop that waits a deadline out, with the guard released. -/
  | sleepWait (me : Slot) (wake : BitVec 32)
  /-- In the loop of a finished task on a core without a scheduler context, guard released. -/
  | doneWait (me : Slot)
  /-- `next` is claimed and the guard released; `next->sp` has not been read. -/
  | load (me : Option Slot) (next : Slot)
  /-- In `task_ctx_switch`, before the outgoing stack pointer is stored. -/
  | store (me : Option Slot) (dst : Sp)
  /-- In `task_ctx_switch`, before the outgoing task's `live` is cleared. -/
  | clear (me : Slot) (dst : Sp)
  /-- In `task_ctx_switch`, before the stack pointer is swapped. -/
  | resume (dst : Sp)
  | sleepWrite (me : Slot) (wake : BitVec 32)
  | exitWrite (me : Slot)
  /-- In `slot_of`, before slot `i`'s state is read. -/
  | lookup (job : Job) (pid : Int) (i : Nat)
  /-- In `slot_of`, before slot `i`'s pid is read. -/
  | lookupPid (job : Job) (pid : Int) (i : Slot)
  | kill (pc : KillPc) (t : Slot)
  | reap (pc : ReapPc) (t : Slot)
  /-- In `task_spawn`, before the guard is taken. -/
  | reserve (affinity : TaskAffinity)
  | spawn (pc : SpawnPc) (l : Spawning)
  deriving DecidableEq, Repr

/-- What belongs to one core: `g_current`, the memo of `cur`, `g_sched_sp` and its position.
Ghost: `exec` is the context whose stack the core stands on; in a switch it is the incoming one
from the moment the outgoing task's flag is cleared. -/
structure CoreState where
  current : Int
  memo : Option Slot
  schedSp : Option Sp
  pc : Pc
  exec : Option Nat
  deriving DecidableEq, Repr

/-- A task that `task_spawn` has published and that has not been reaped or reclaimed. -/
structure Born where
  slot : Slot
  pid : Int
  deriving DecidableEq, Repr

/-- The scheduler's state.  Ghost: `nextStack` numbers the stacks that `malloc` returns, `parks k`
counts the parks that context `k` has begun, `exited k` records that it executed `task_exit`, and
`born` lists the spawned tasks that still own their slots. -/
structure Sys where
  tasks : Slot → Task
  cores : Core → CoreState
  nextPid : Int
  shellPid : Int
  nextStack : Nat
  parks : Nat → Nat
  exited : Nat → Bool
  born : List Born

/-- The operations a context can call. -/
inductive Op
  | yield
  | sleep (ms : BitVec 32)
  | exit
  | kill (pid : Int)
  | spawn (affinity : TaskAffinity)
  | reap (pid : Int)
  | setAffinity (pid : Int) (affinity : TaskAffinity)
  | clearStop
  | markShell
  deriving DecidableEq, Repr

/-- One move of a core: call an operation at time `now`, take the next step of the operation it is
in at time `now`, or take the step in which `malloc` answers. -/
inductive Move
  | call (op : Op) (now : BitVec 32)
  | go (now : BitVec 32)
  | malloc (ok : Bool)
  deriving DecidableEq, Repr

namespace Sys

def setTask (s : Sys) (t : Slot) (f : Task → Task) : Sys :=
  { s with tasks := upd s.tasks t (f (s.tasks t)) }

def setCore (s : Sys) (c : Core) (f : CoreState → CoreState) : Sys :=
  { s with cores := upd s.cores c (f (s.cores c)) }

/-- Core `c` moves to `pc`. -/
def goto (s : Sys) (c : Core) (pc : Pc) : Sys := s.setCore c fun k => { k with pc }

section Simp

variable (s : Sys) (t u : Slot) (c d : Core) (f : Task → Task) (g : CoreState → CoreState) (pc : Pc)

@[simp] theorem setTask_cores : (s.setTask t f).cores = s.cores := rfl
@[simp] theorem setTask_nextPid : (s.setTask t f).nextPid = s.nextPid := rfl
@[simp] theorem setTask_shellPid : (s.setTask t f).shellPid = s.shellPid := rfl
@[simp] theorem setTask_nextStack : (s.setTask t f).nextStack = s.nextStack := rfl
@[simp] theorem setTask_parks : (s.setTask t f).parks = s.parks := rfl
@[simp] theorem setTask_exited : (s.setTask t f).exited = s.exited := rfl
@[simp] theorem setTask_born : (s.setTask t f).born = s.born := rfl
@[simp] theorem setCore_tasks : (s.setCore c g).tasks = s.tasks := rfl
@[simp] theorem setCore_nextPid : (s.setCore c g).nextPid = s.nextPid := rfl
@[simp] theorem setCore_shellPid : (s.setCore c g).shellPid = s.shellPid := rfl
@[simp] theorem setCore_nextStack : (s.setCore c g).nextStack = s.nextStack := rfl
@[simp] theorem setCore_parks : (s.setCore c g).parks = s.parks := rfl
@[simp] theorem setCore_exited : (s.setCore c g).exited = s.exited := rfl
@[simp] theorem setCore_born : (s.setCore c g).born = s.born := rfl
@[simp] theorem goto_tasks : (s.goto c pc).tasks = s.tasks := rfl
@[simp] theorem goto_nextPid : (s.goto c pc).nextPid = s.nextPid := rfl
@[simp] theorem goto_shellPid : (s.goto c pc).shellPid = s.shellPid := rfl
@[simp] theorem goto_nextStack : (s.goto c pc).nextStack = s.nextStack := rfl
@[simp] theorem goto_parks : (s.goto c pc).parks = s.parks := rfl
@[simp] theorem goto_exited : (s.goto c pc).exited = s.exited := rfl
@[simp] theorem goto_born : (s.goto c pc).born = s.born := rfl

theorem setTask_tasks : (s.setTask t f).tasks u = if u = t then f (s.tasks t) else s.tasks u := rfl

theorem setCore_cores : (s.setCore c g).cores d = if d = c then g (s.cores c) else s.cores d := rfl

theorem goto_cores :
    (s.goto c pc).cores d = if d = c then { s.cores c with pc } else s.cores d := rfl

end Simp

end Sys

end RPCortex.Sched
