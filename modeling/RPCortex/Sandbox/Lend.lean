import RPCortex.Lib.Owned

/-! The pool of sandbox memory, `apps.cpp`.  A stack and an arena are lent to one package call; every section
under the lock of the pool, every `malloc` and every `free` is a step, on any number of calls at once. -/

namespace RPCortex.Sandbox

open Lib

/-- `SandboxAlloc`, the two blocks of it. -/
structure SandboxAlloc where
  stackRaw : Nat
  arenaRaw : Nat

def SandboxAlloc.blocks (sa : SandboxAlloc) : List Nat := [sa.stackRaw, sa.arenaRaw]

/-- `SandboxSlot`. -/
structure SandboxSlot where
  used : Bool
  slot : Nat
  lent : Bool
  sa : SandboxAlloc

/-- After `memset`. -/
def SandboxSlot.zero : SandboxSlot := ⟨false, 0, false, ⟨0, 0⟩⟩

/-- What `sandbox_alloc` is called for: a block that is never pooled, or one for a task slot, with whether the
pool may still be reclaimed for it. -/
inductive Goal
  | transient
  | pool (slot : Nat) (again : Bool)

/-- What is left to do after blocks are freed: nothing, the rest of `apps_pool_reclaim`, which an acquiring call may
wait for, the rest of `apps_task_ended`, or the failure of `sandbox_alloc`. -/
inductive Next
  | done
  | reclaim (slot : Option Nat)
  | ended (slot : Nat)
  | failed (goal : Goal)

/-- Where a call is, or an operation on its own. -/
inductive Pc
  | idle
  /-- To look for the task's own entry. -/
  | own (slot : Nat)
  /-- To allocate the stack. -/
  | stack (goal : Goal)
  /-- To allocate the arena. -/
  | arena (goal : Goal) (stackRaw : Option Nat)
  /-- To put the blocks into a free entry. -/
  | claim (slot : Nat) (sa : SandboxAlloc)
  /-- The package runs. -/
  | call (sa : SandboxAlloc) (pooled : Bool)
  /-- In `sandbox_return`, to look for the entry that was lent. -/
  | give (sa : SandboxAlloc)
  | reclaim (slot : Option Nat)
  | ended (slot : Nat)
  | free (blocks : List Nat) (next : Next)

/-- The pool, the heap and the calls. -/
structure State where
  pool : Fin 4 → SandboxSlot
  heap : Nat → Bool
  pc : Nat → Pc

def State.start : State := ⟨fun _ => .zero, fun _ => false, fun _ => .idle⟩

/-- The first entry with a property. -/
def State.entry? (s : State) (p : SandboxSlot → Bool) : Option (Fin 4) := (List.finRange 4).find? fun i => p (s.pool i)

def State.go (s : State) (t : Nat) (pc : Pc) : State := { s with pc := upd s.pc t pc }

def State.setEntry (s : State) (i : Fin 4) (e : SandboxSlot) : State := { s with pool := upd s.pool i e }

/-- Where it goes on when the blocks are freed. -/
def Next.pc : Next → Pc
  | .done => .idle
  | .reclaim slot => .reclaim slot
  | .ended slot => .ended slot
  | .failed (.pool slot true) => .reclaim (some slot)
  | .failed _ => .idle

/-- The blocks of a `sandbox_alloc` that succeeded. -/
def Goal.pc (sa : SandboxAlloc) : Goal → Pc
  | .transient => .call sa false
  | .pool slot _ => .claim slot sa

/-- What `malloc` answers to a call: a block that is free, or nothing. -/
def State.malloc (s : State) (got : Option Nat) : Option State :=
  match got with
  | none => some s
  | some p => if s.heap p then none else some { s with heap := upd s.heap p true }

/-- The next step of a call.  `got` is what `malloc` answers, and `yes` what the heap says: that it is tight, or
that the reclaim has released something. -/
def State.step (s : State) (t : Nat) (got : Option Nat) (yes : Bool) : Option State :=
  match s.pc t with
  | .idle => none
  | .call .. => none
  | .own slot =>
    match s.entry? fun e => e.used && e.slot = slot && !e.lent with
    | some i => some ((s.setEntry i { s.pool i with lent := true }).go t (.call (s.pool i).sa true))
    | none => some (s.go t (.stack (.pool slot true)))
  | .stack goal => (s.malloc got).map fun s => s.go t (.arena goal got)
  | .arena goal stackRaw => (s.malloc got).map fun s =>
    match stackRaw, got with
    | some p, some q => s.go t (goal.pc ⟨p, q⟩)
    | _, _ => s.go t (.free (stackRaw.toList ++ got.toList) (.failed goal))
  | .claim slot sa =>
    match s.entry? fun e => !e.used with
    | some i => some ((s.setEntry i ⟨true, slot, true, sa⟩).go t (.call sa true))
    | none => some (s.go t (.call sa false))
  | .give sa =>
    match s.entry? fun e => e.lent && e.sa.stackRaw = sa.stackRaw with
    | some i =>
      if yes then some ((s.setEntry i .zero).go t (.free (s.pool i).sa.blocks .done))
      else some ((s.setEntry i { s.pool i with lent := false }).go t .idle)
    | none => some (s.go t (.free sa.blocks .done))
  | .reclaim slot =>
    match s.entry? fun e => e.used && !e.lent with
    | some i => some ((s.setEntry i .zero).go t (.free (s.pool i).sa.blocks (.reclaim slot)))
    | none =>
      match slot with
      | some slot => if yes then some (s.go t (.stack (.pool slot false))) else some (s.go t .idle)
      | none => some (s.go t .idle)
  | .ended slot =>
    match s.entry? fun e => e.used && e.slot = slot with
    | some i =>
      if (s.pool i).lent then some ((s.setEntry i .zero).go t (.ended slot))
      else some ((s.setEntry i .zero).go t (.free (s.pool i).sa.blocks (.ended slot)))
    | none => some (s.go t .idle)
  | .free [] next => some (s.go t next.pc)
  | .free (p :: blocks) next => some ({ s with heap := upd s.heap p false }.go t (.free blocks next))

def Pc.isIdle : Pc → Bool
  | .idle => true
  | _ => false

inductive Action
  /-- `sandbox_acquire`, with the task's slot, if it has one, and whether more than the default is asked for. -/
  | acquire (t : Nat) (slot : Option Nat) (big : Bool)
  /-- `sandbox_return`. -/
  | giveBack (t : Nat)
  /-- `apps_pool_reclaim`. -/
  | reclaim (t : Nat)
  /-- `apps_task_ended`. -/
  | ended (t slot : Nat)
  | step (t : Nat) (got : Option Nat) (yes : Bool)

def step (s : State) : Action → Option State
  | .acquire t slot big =>
    if !(s.pc t).isIdle then none
    else
      match slot with
      | some slot => if big then some (s.go t (.stack .transient)) else some (s.go t (.own slot))
      | none => some (s.go t (.stack .transient))
  | .giveBack t =>
    match s.pc t with
    | .call sa true => some (s.go t (.give sa))
    | .call sa false => some (s.go t (.free sa.blocks .done))
    | _ => none
  | .reclaim t => if (s.pc t).isIdle then some (s.go t (.reclaim none)) else none
  | .ended t slot => if (s.pc t).isIdle then some (s.go t (.ended slot)) else none
  | .step t got yes => s.step t got yes

/-- The blocks that a call has in its hands. -/
def Pc.hand : Pc → List Nat
  | .arena _ stackRaw => stackRaw.toList
  | .claim _ sa => sa.blocks
  | .call sa _ => sa.blocks
  | .give sa => sa.blocks
  | .free blocks _ => blocks
  | _ => []

/-- The blocks that the pool keeps for an entry. -/
def SandboxSlot.hand (e : SandboxSlot) : List Nat := if e.used && !e.lent then e.sa.blocks else []

/-- The blocks of a package call that has not begun to return them. -/
def Pc.runs : Pc → List Nat
  | .call sa _ => sa.blocks
  | _ => []

/-- The block that is about to be freed. -/
def Pc.frees : Pc → Option Nat
  | .free (p :: _) _ => some p
  | _ => none

end RPCortex.Sandbox
