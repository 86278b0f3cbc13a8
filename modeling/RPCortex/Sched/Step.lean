import RPCortex.Sched.State

/-! The steps of the scheduler of `core/task.cpp`.  A section between `lock_hw_enter` and
`lock_hw_exit` is one step; outside the guard every read or write of a field that another core can
touch is a step of its own.  The stack tripwire is taken to be intact: a breach ends in
`task_stack_overflow`, which does not return. -/

namespace RPCortex.Sched

open Lib

/-- `slot_of`, where the caller's reads of the table form one step. -/
def slotOf (s : Sys) (pid : Int) : Option Slot :=
  (List.finRange taskMax).find? fun i =>
    decide ((s.tasks i).state ≠ .free) && decide ((s.tasks i).pid = pid)

/-- `cur`: the memo when it is still about this pid, a search otherwise. -/
def cur (s : Sys) (c : Core) : Option Slot :=
  if (s.cores c).current < 0 then none
  else match (s.cores c).memo with
    | some m =>
      if (s.tasks m).pid = (s.cores c).current ∧ (s.tasks m).state ≠ .free then some m
      else slotOf s (s.cores c).current
    | none => slotOf s (s.cores c).current

/-- The write that `cur` makes to its memo. -/
def remember (s : Sys) (c : Core) : Sys :=
  if (s.cores c).current < 0 then s else s.setCore c fun k => { k with memo := cur s c }

/-- `(int32_t)(now - wake) >= 0`. -/
def due (now wake : BitVec 32) : Bool := decide (0 ≤ (now - wake).toInt)

/-- `runnable_on`. -/
def runnableOn (t : Task) (c : Core) (now : BitVec 32) : Bool :=
  !t.live &&
  (match t.state with
    | .ready => true
    | .sleeping => due now t.wakeAt
    | _ => false) &&
  (match t.affinity with
    | .any => true
    | .core0 => decide (c = 0)
    | .core1 => decide (c = 1))

/-- The order in which `pick` looks at the slots: from the one after `after_pid`'s, round. -/
def pickOrder (s : Sys) (after : Int) : List Slot :=
  let start := match slotOf s after with
    | some i => i.val + 1
    | none => 0
  (List.range taskMax).map fun n => Fin.ofNat taskMax (start + n)

/-- `pick`. -/
def pick (s : Sys) (c : Core) (after : Int) (now : BitVec 32) : Option Slot :=
  (pickOrder s after).find? fun t =>
    decide ((s.tasks t).state ≠ .free) && runnableOn (s.tasks t) c now

/-- Ghost: the context on core `c` begins a park. -/
def beginPark (s : Sys) (c : Core) : Nat → Nat :=
  match (s.cores c).exec with
  | some k => upd s.parks k (s.parks k + 1)
  | none => s.parks

/-- The end of `reschedule`'s guard section once `next` is chosen. -/
def claim (s : Sys) (c : Core) (me : Option Slot) (next : Slot) : Sys :=
  if me = some next then
    (s.setTask next fun t => { t with state := .running }).goto c .user
  else
    { (s.setTask next fun t => { t with state := .running, live := true }).setCore c fun k =>
        { k with current := (s.tasks next).pid, pc := .load me next } with
      parks := beginPark s c }

/-- A finished task on a core whose scheduler context is parked: switch back to that context. -/
def backToSched (s : Sys) (c : Core) (me : Slot) (back : Sp) : Sys :=
  { s.setCore c fun k =>
      { k with schedSp := none, current := -1, pc := .store (some me) back } with
    parks := beginPark s c }

/-- `reschedule`'s guard section when `pick` found nothing. -/
def nothingElse (s : Sys) (c : Core) : Option Slot → Sys
  | none => s.goto c .user
  | some me => match (s.tasks me).state with
    | .ready => (s.setTask me fun t => { t with state := .running }).goto c .user
    | .sleeping => s.goto c (.sleepWait me (s.tasks me).wakeAt)
    | .done => match (s.cores c).schedSp with
      | some back => backToSched s c me back
      | none => s.goto c (.doneWait me)
    | _ => s.goto c .user

/-- The running task `me` is parked in the state asked for. -/
def parkMe (s : Sys) (me : Option Slot) (parkAs : TaskState) : Sys :=
  match me with
  | some m => s.setTask m fun t =>
      if t.state = .running then { t with state := parkAs } else t
  | none => s

/-- The pid that `pick` starts after: 0 without a current task. -/
def pidOf (s : Sys) : Option Slot → Int
  | some m => (s.tasks m).pid
  | none => 0

/-- `reschedule`, from the guard to its release. -/
def reschedule (s : Sys) (c : Core) (parkAs : TaskState) (now : BitVec 32) : Sys :=
  let me := cur s c
  let s := parkMe (remember s c) me parkAs
  match pick s c (pidOf s me) now with
  | some next => claim s c me next
  | none => nothingElse s c me

/-- One turn of the loop that waits out a sleeping task's deadline. -/
def sleepTurn (s : Sys) (c : Core) (me : Slot) (wake now : BitVec 32) : Sys :=
  if due now wake then (s.setTask me fun t => { t with state := .running }).goto c .user
  else match pick s c (s.tasks me).pid now with
    | some next => claim s c (some me) next
    | none => s

/-- One turn of the loop in which a finished task waits for a successor. -/
def doneTurn (s : Sys) (c : Core) (me : Slot) (now : BitVec 32) : Sys :=
  match pick s c 0 now with
  | some next => claim s c (some me) next
  | none => s

/-- The stack pointer that the latest park of a context saves; the scheduler's own contexts do not
count theirs. -/
def latest (s : Sys) (context : Option Nat) : Sp := ⟨context, context.elim 0 s.parks⟩

/-- What `task_ctx_switch` saves: the context on the core, at its latest park. -/
def savedSp (s : Sys) (c : Core) : Sp := latest s (s.cores c).exec

/-- `task_ctx_switch` stores the outgoing stack pointer.  The scheduler's own context has no flag
to clear, so its switch goes straight on. -/
def storeSp (s : Sys) (c : Core) (dst : Sp) : Option Slot → Sys
  | some me => (s.setTask me fun t => { t with sp := savedSp s c }).goto c (.clear me dst)
  | none => s.setCore c fun k =>
      { k with schedSp := some (savedSp s c), pc := .resume dst, exec := dst.owner }

/-- `task_ctx_switch` clears the outgoing task's `live` and leaves its stack. -/
def clearLive (s : Sys) (c : Core) (me : Slot) (dst : Sp) : Sys :=
  (s.setTask me fun t => { t with live := false }).setCore c fun k =>
    { k with pc := .resume dst, exec := dst.owner }

/-- `task_exit` marks the task finished. -/
def exitWrite (s : Sys) (c : Core) (me : Slot) : Sys :=
  { (s.setTask me fun t => { t with state := .done }).goto c (.sched .done) with
    exited := match (s.cores c).exec with
      | some k => upd s.exited k true
      | none => s.exited }

/-- `task_kill` after its lookup. -/
def killStep (s : Sys) (c : Core) (t : Slot) (now : BitVec 32) : KillPc → Sys
  | .idle => s.goto c (if (s.tasks t).pid = 1 then .user else .kill .shell t)
  | .shell =>
    s.goto c (if s.shellPid ≠ 0 ∧ (s.tasks t).pid = s.shellPid then .user else .kill .finished t)
  | .finished => s.goto c (if (s.tasks t).state = .done then .user else .kill .request t)
  | .request => (s.setTask t fun k => { k with killRequested := true }).goto c (.kill .asleep t)
  | .asleep => s.goto c (if (s.tasks t).state = .sleeping then .kill .wake t else .user)
  | .wake => (s.setTask t fun k => { k with wakeAt := now }).goto c (.kill .ready t)
  | .ready => (s.setTask t fun k => { k with state := .ready }).goto c .user

/-- The spawned tasks that own their slots, without the one in `t`. -/
def bornExcept (s : Sys) (t : Slot) : List Born := s.born.filter fun b => decide (b.slot ≠ t)

/-- `task_reap` after its lookup. -/
def reapStep (s : Sys) (c : Core) (t : Slot) : ReapPc → Sys
  | .finished => s.goto c (if (s.tasks t).state = .done then .reap .takeStack t else .user)
  | .takeStack => s.goto c (match (s.tasks t).stackRaw with
      | some k => .reap (.release k) t
      | none => .reap .dropStack t)
  | .release _ => s.goto c (.reap .dropStack t)
  | .dropStack => (s.setTask t fun k => { k with stackRaw := none }).goto c (.reap .free t)
  | .free => { (s.setTask t fun k => { k with state := .free }).goto c .user with
      born := bornExcept s t }

/-- The first free slot, as `task_spawn` finds it. -/
def freeSlot (s : Sys) : Option Slot :=
  (List.finRange taskMax).find? fun i => decide ((s.tasks i).state = .free)

/-- One turn of `task_spawn`'s search for the finished task with the lowest pid. -/
def older (s : Sys) (oldest : Option Slot) (i : Slot) : Option Slot :=
  if (s.tasks i).state ≠ .done then oldest
  else match oldest with
    | none => some i
    | some j => if (s.tasks i).pid < (s.tasks j).pid then some i else oldest

/-- The finished task with the lowest pid. -/
def oldestDone (s : Sys) : Option Slot := (List.finRange taskMax).foldl (older s) none

/-- `task_spawn`'s guard section. -/
def reserve (s : Sys) (c : Core) (affinity : TaskAffinity) : Sys :=
  match freeSlot s with
  | some t =>
    (s.setTask t fun k => { k with state := .blocked }).goto c (.spawn .alloc ⟨affinity, t, 0, 0⟩)
  | none => match oldestDone s with
    | some t =>
      { (s.setTask t fun k =>
            { k with stackRaw := none, state := .blocked, live := false }).goto c
          (.spawn (match (s.tasks t).stackRaw with
            | some k => .release k
            | none => .alloc) ⟨affinity, t, 0, 0⟩) with
        born := bornExcept s t }
    | none => s.goto c .user

/-- The `int` after `x`. -/
def incInt (x : Int) : Int := (x + 1).bmod (0x100000000)

/-- `task_spawn` after its guard section, `malloc` apart. -/
def spawnStep (s : Sys) (c : Core) (l : Spawning) : SpawnPc → Option Sys
  | .release _ => some (s.goto c (.spawn .alloc l))
  | .alloc => none
  | .abandon => some ((s.setTask l.slot fun t => { t with state := .free }).goto c .user)
  | .zeroPid => some ((s.setTask l.slot fun t => { t with pid := 0 }).goto c (.spawn .zeroState l))
  | .zeroState =>
    some ((s.setTask l.slot fun t => { t with state := .free }).goto c (.spawn .zeroAffinity l))
  | .zeroAffinity =>
    some ((s.setTask l.slot fun t => { t with affinity := .any }).goto c (.spawn .zeroKill l))
  | .zeroKill =>
    some ((s.setTask l.slot fun t => { t with killRequested := false }).goto c
      (.spawn .fetchPid l))
  | .fetchPid => some (s.goto c (.spawn .storePid { l with pid := s.nextPid }))
  | .storePid => some ({ s with nextPid := incInt l.pid }.goto c (.spawn .setPid l))
  | .setPid =>
    some ((s.setTask l.slot fun t => { t with pid := l.pid }).goto c (.spawn .setAffinity l))
  | .setAffinity =>
    some ((s.setTask l.slot fun t => { t with affinity := l.affinity }).goto c (.spawn .setStack l))
  | .setStack =>
    some ((s.setTask l.slot fun t => { t with stackRaw := some l.stack, inst := some l.stack }).goto c
      (.spawn .setLive l))
  | .setLive =>
    some ((s.setTask l.slot fun t => { t with live := false }).goto c (.spawn .setSp l))
  | .setSp =>
    some ((s.setTask l.slot fun t => { t with sp := ⟨some l.stack, 0⟩ }).goto c (.spawn .publish l))
  | .publish =>
    some { (s.setTask l.slot fun t => { t with state := .ready }).goto c (.spawn .report l) with
      born := ⟨l.slot, l.pid⟩ :: s.born }
  | .report => some (s.goto c .user)

/-- `malloc` answers `task_spawn`: a stack no one has, or none. -/
def mallocStep (s : Sys) (c : Core) (l : Spawning) (ok : Bool) : Sys :=
  if ok then
    { s.goto c (.spawn .zeroPid { l with stack := s.nextStack }) with nextStack := s.nextStack + 1 }
  else s.goto c (.spawn .abandon l)

/-- One step of `slot_of` outside the guard: a slot's state, then its pid. -/
def lookupStep (s : Sys) (c : Core) (job : Job) (pid : Int) (i : Nat) : Sys :=
  if h : i < taskMax then
    s.goto c (if (s.tasks ⟨i, h⟩).state = .free then .lookup job pid (i + 1)
      else .lookupPid job pid ⟨i, h⟩)
  else s.goto c .user

def lookupPidStep (s : Sys) (c : Core) (job : Job) (pid : Int) (i : Slot) : Sys :=
  s.goto c (if (s.tasks i).pid = pid then
      match job with
      | .kill => .kill .idle i
      | .reap => .reap .finished i
    else .lookup job pid (i + 1))

/-- A context calls an operation. -/
def callOp (s : Sys) (c : Core) (now : BitVec 32) : Op → Sys
  | .yield => s.goto c (.sched .ready)
  | .sleep ms => match cur s c with
    | some me => (remember s c).goto c (.sleepWrite me (now + ms))
    | none => remember s c
  | .exit => match cur s c with
    | some me => (remember s c).goto c (.exitWrite me)
    | none => remember s c
  | .kill pid => s.goto c (.lookup .kill pid 0)
  | .spawn affinity => s.goto c (.reserve affinity)
  | .reap pid => s.goto c (.lookup .reap pid 0)
  | .setAffinity pid affinity => match slotOf s pid with
    | some t => s.setTask t fun k => { k with affinity }
    | none => s
  | .clearStop => match cur s c with
    | some me => (remember s c).setTask me fun t => { t with killRequested := false }
    | none => remember s c
  | .markShell => match cur s c with
    | some me => { remember s c with shellPid := (s.tasks me).pid }
    | none => remember s c

/-- The next step of the operation core `c` is in. -/
def go (s : Sys) (c : Core) (now : BitVec 32) : Option Sys :=
  match (s.cores c).pc with
  | .user => none
  | .sched parkAs => some (reschedule s c parkAs now)
  | .sleepWait me wake => some (sleepTurn s c me wake now)
  | .doneWait me => some (doneTurn s c me now)
  | .load me next => some (s.goto c (.store me (s.tasks next).sp))
  | .store me dst => some (storeSp s c dst me)
  | .clear me dst => some (clearLive s c me dst)
  | .resume _ => some (s.goto c .user)
  | .sleepWrite me wake =>
    some ((s.setTask me fun t => { t with wakeAt := wake }).goto c (.sched .sleeping))
  | .exitWrite me => some (exitWrite s c me)
  | .lookup job pid i => some (lookupStep s c job pid i)
  | .lookupPid job pid i => some (lookupPidStep s c job pid i)
  | .kill pc t => some (killStep s c t now pc)
  | .reap pc t => some (reapStep s c t pc)
  | .reserve affinity => some (reserve s c affinity)
  | .spawn pc l => spawnStep s c l pc

/-- One move of one core. -/
def step (s : Sys) : Core × Move → Option Sys
  | (c, .call op now) => if (s.cores c).pc = .user then some (callOp s c now op) else none
  | (c, .go now) => go s c now
  | (c, .malloc ok) => match (s.cores c).pc with
    | .spawn .alloc l => some (mallocStep s c l ok)
    | _ => none

/-- The state `task_init` leaves: the caller runs as pid 1 on core 0, and core 1 stands in its own
loop. -/
def taskInit : Sys where
  tasks := upd (fun _ => ⟨0, .free, .any, false, 0, ⟨none, 0⟩, none, false, none⟩) 0
    ⟨1, .running, .core0, false, 0, ⟨none, 0⟩, none, true, some 0⟩
  cores c := if c = 0 then ⟨1, none, none, .user, some 0⟩ else ⟨-1, none, none, .user, none⟩
  nextPid := 2
  shellPid := 0
  nextStack := 1
  parks := fun _ => 0
  exited := fun _ => false
  born := []

end RPCortex.Sched
