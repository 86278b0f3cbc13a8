import RPCortex.Sched.Step

/-! Orderly moves.  Outside the guard `task_kill`, `task_reap` and the fill of `task_spawn` act on
what they read earlier, and inside it `task_spawn` takes a free or finished slot without asking
whether a core is still on it.  A move is orderly when the state in which it acts is still the one
it was decided in. -/

namespace RPCortex.Sched

/-- READY, RUNNING or SLEEPING. -/
def TaskState.alive : TaskState → Bool
  | .ready | .running | .sleeping => true
  | .free | .blocked | .done => false

/-- The slot that `task_spawn` has reserved and not yet published. -/
def Pc.reserved : Pc → Option Slot
  | .spawn .report _ => none
  | .spawn _ l => some l.slot
  | _ => none

/-- The finished task that a core at this position has not switched away from. -/
def Pc.leaving (current : Option Slot) : Pc → Option Slot
  | .sched .done => current
  | .doneWait me => some me
  | .load me _ | .store me _ => me
  | .clear me _ => some me
  | _ => none

/-- Core `d` has not left the finished task in slot `t`. -/
def Leaving (s : Sys) (d : Core) (t : Slot) : Prop :=
  (s.cores d).pc.leaving (cur s d) = some t

instance (s : Sys) (d : Core) (t : Slot) : Decidable (Leaving s d t) :=
  inferInstanceAs (Decidable (_ = _))

/-- The task in slot `t` is finished and every core has left it. -/
def Left (s : Sys) (t : Slot) : Prop := (s.tasks t).state = .done ∧ ∀ d, ¬Leaving s d t

instance (s : Sys) (t : Slot) : Decidable (Left s t) := inferInstanceAs (Decidable (_ ∧ _))

/-- The next step of a core at this position acts on what is still so. -/
def Pc.orderly (s : Sys) : Pc → Bool
  | .reserve _ => match freeSlot s with
    | some t => decide (∀ d, (s.cores d).pc.reserved ≠ some t)
    | none => decide (∀ t, oldestDone s = some t → Left s t)
  | .spawn .storePid l => decide (s.nextPid = l.pid ∧ l.pid < 0x7fffffff)
  | .kill .ready t => (s.tasks t).state.alive
  | .reap .takeStack t => decide (Left s t)
  | .reap .free t => decide ((s.tasks t).state = .free ∨ Left s t)
  | _ => true

/-- The move acts on what is still so. -/
def Orderly (s : Sys) : Core × Move → Prop
  | (c, .go _) => (s.cores c).pc.orderly s
  | _ => True

instance (s : Sys) : (a : Core × Move) → Decidable (Orderly s a)
  | (_, .go _) => inferInstanceAs (Decidable (_ = true))
  | (_, .call ..) | (_, .malloc _) => .isTrue trivial

end RPCortex.Sched

/-! The invariant of the scheduler.  `Inv s held` ties the task table to the two cores, where
`held c` is the slot of core `c`'s current task: who is live, whose stack each core stands on, which
stack pointer a claimed or waiting task is resumed from, and what a slot that is being filled looks
like from outside.  It sees a task's state only up to `alive`. -/

namespace RPCortex.Sched

open Lib

/-- A slot in such a state belongs to a published task. -/
def TaskState.owned (st : TaskState) : Bool := st.alive || st = .done

namespace Pc

/-- The task the core is switching away from. -/
def outgoing : Pc → Option Slot
  | .load me _ | .store me _ => me
  | .clear me _ => some me
  | _ => none

/-- The current task has executed `task_exit` and no successor has been chosen. -/
def finishing : Pc → Bool
  | .sched .done | .doneWait _ => true
  | _ => false

/-- The slot whose stack the core stands on, when its current task is in `held`. -/
def standing (held : Option Slot) : Pc → Option Slot
  | .load me _ | .store me _ => me
  | .clear me _ => some me
  | _ => held

/-- The pid that `task_spawn` has taken and not yet written. -/
def pendingPid : Pc → Option Int
  | .spawn .setPid l => some l.pid
  | _ => none

/-- The stack that `task_spawn` has allocated and not yet written to its slot. -/
def pendingStack : Pc → Option Nat
  | .spawn .zeroPid l | .spawn .zeroState l | .spawn .zeroAffinity l | .spawn .zeroKill l
  | .spawn .fetchPid l | .spawn .storePid l | .spawn .setPid l | .spawn .setAffinity l
  | .spawn .setStack l => some l.stack
  | _ => none

/-- The stack whose release is the core's next step. -/
def releasing : Pc → Option Nat
  | .spawn (.release k) _ | .reap (.release k) _ => some k
  | _ => none

end Pc

namespace SpawnPc

/-- The `memset` has reached the slot's state. -/
def zeroed : SpawnPc → Bool
  | .release _ | .alloc | .abandon | .zeroPid | .zeroState => false
  | _ => true

/-- The slot carries the new pid. -/
def numbered : SpawnPc → Bool
  | .setAffinity | .setStack | .setLive | .setSp | .publish => true
  | _ => false

/-- The slot carries the new stack. -/
def stacked : SpawnPc → Bool
  | .setLive | .setSp | .publish => true
  | _ => false

end SpawnPc

/-- What a slot looks like while `task_spawn` fills it. -/
structure Filling (s : Sys) (pc : SpawnPc) (l : Spawning) : Prop where
  state : (s.tasks l.slot).state = if pc.zeroed then .free else .blocked
  pid : pc.numbered → (s.tasks l.slot).pid = l.pid ∧ 0 < l.pid
  inst : pc.stacked → (s.tasks l.slot).inst = some l.stack ∧ s.exited l.stack = false ∧
    s.parks l.stack = 0
  sp : pc = .publish → (s.tasks l.slot).sp = ⟨some l.stack, 0⟩

/-- What holds of a core at each position, when its current task is in `held`. -/
def Pc.Ok (s : Sys) (held : Option Slot) : Pc → Prop
  | .sched parkAs => parkAs = .ready ∨ parkAs = .sleeping ∨ parkAs = .done ∧ held ≠ none
  | .sleepWait me _ | .doneWait me | .sleepWrite me _ | .exitWrite me => held = some me
  | .load _ next => held = some next ∧ (s.tasks next).sp = latest s (s.tasks next).inst
  | .store _ dst | .resume dst => dst = latest s (held.bind fun i => (s.tasks i).inst)
  | .clear me dst => dst = latest s (held.bind fun i => (s.tasks i).inst) ∧
    (s.tasks me).sp = latest s (s.tasks me).inst
  | .spawn .report _ => True
  | .spawn pc l => Filling s pc l
  | _ => True

/-- Slot `i` is on core `c`: its current task or the one it is switching away from. -/
def Holds (s : Sys) (held : Core → Option Slot) (c : Core) (i : Slot) : Prop :=
  held c = some i ∨ (s.cores c).pc.outgoing = some i

structure Inv (s : Sys) (held : Core → Option Slot) : Prop where
  -- pids
  pid_range : ∀ i, 0 ≤ (s.tasks i).pid ∧ (s.tasks i).pid < s.nextPid
  pid_inj : ∀ i j, (s.tasks i).pid = (s.tasks j).pid → 0 < (s.tasks i).pid → i = j
  pid_pos : ∀ i, (s.tasks i).state.owned → 0 < (s.tasks i).pid
  nextPid_pos : 0 < s.nextPid
  current : ∀ c, (s.cores c).current = (held c).elim (-1) fun i => (s.tasks i).pid
  -- cores
  live_iff : ∀ i, (s.tasks i).live = true ↔ ∃ c, Holds s held c i
  excl : ∀ c d i, Holds s held c i → Holds s held d i → c = d
  outgoing_ne : ∀ c i, (s.cores c).pc.outgoing = some i → held c ≠ some i
  exec : ∀ c, (s.cores c).exec = ((s.cores c).pc.standing (held c)).bind fun i => (s.tasks i).inst
  held_alive : ∀ c i, held c = some i → (s.cores c).pc.finishing = false → (s.tasks i).state.alive
  held_done : ∀ c i, held c = some i → (s.cores c).pc.finishing = true → (s.tasks i).state = .done
  outgoing_owned : ∀ c i, (s.cores c).pc.outgoing = some i → (s.tasks i).state.owned
  schedSp : ∀ c sp, (s.cores c).schedSp = some sp → sp = latest s none
  pc : ∀ c, (s.cores c).pc.Ok s (held c)
  -- contexts
  inst_some : ∀ i, (s.tasks i).state.owned → (s.tasks i).inst ≠ none
  inst_lt : ∀ i k, (s.tasks i).inst = some k → k < s.nextStack
  inst_inj : ∀ i j k, (s.tasks i).inst = some k → (s.tasks j).inst = some k → i = j
  parked : ∀ i, (s.tasks i).state.alive → (s.tasks i).live = false →
    (s.tasks i).sp = latest s (s.tasks i).inst
  alive_not_exited : ∀ i k, (s.tasks i).state.alive → (s.tasks i).inst = some k →
    s.exited k = false
  done_exited : ∀ i k, (s.tasks i).state = .done → (s.tasks i).inst = some k → s.exited k = true
  stackRaw : ∀ i k, (s.tasks i).stackRaw = some k → (s.tasks i).inst = some k
  fresh : ∀ k, s.nextStack ≤ k → s.exited k = false ∧ s.parks k = 0
  -- spawns and releases under way
  reserved_inj : ∀ c d i, (s.cores c).pc.reserved = some i → (s.cores d).pc.reserved = some i →
    c = d
  pendingPid : ∀ c p, (s.cores c).pc.pendingPid = some p → 0 < p ∧ p < s.nextPid ∧
    (∀ i, (s.tasks i).pid ≠ p) ∧ ∀ d, (s.cores d).pc.pendingPid = some p → d = c
  pendingStack : ∀ c k, (s.cores c).pc.pendingStack = some k → k < s.nextStack ∧
    s.exited k = false ∧ s.parks k = 0 ∧ (∀ i, (s.tasks i).inst ≠ some k) ∧
    ∀ d, (s.cores d).pc.pendingStack = some k → d = c
  releasing : ∀ c k, (s.cores c).pc.releasing = some k → s.exited k = true ∧
    ∀ d, (s.cores d).exec ≠ some k
  -- published tasks
  born : ∀ b ∈ s.born, (s.tasks b.slot).pid = b.pid ∧ (s.tasks b.slot).state.owned
  born_inj : s.born.Pairwise fun a b => a.slot ≠ b.slot

/-- The two states differ in nothing that the invariant sees. -/
structure Same (s s' : Sys) : Prop where
  pid : ∀ i, (s'.tasks i).pid = (s.tasks i).pid
  state : ∀ i, (s'.tasks i).state = (s.tasks i).state ∨
    (s'.tasks i).state.alive ∧ (s.tasks i).state.alive
  sp : ∀ i, (s'.tasks i).sp = (s.tasks i).sp
  stackRaw : ∀ i, (s'.tasks i).stackRaw = (s.tasks i).stackRaw ∨ (s'.tasks i).stackRaw = none
  live : ∀ i, (s'.tasks i).live = (s.tasks i).live
  inst : ∀ i, (s'.tasks i).inst = (s.tasks i).inst
  current : ∀ c, (s'.cores c).current = (s.cores c).current
  schedSp : ∀ c, (s'.cores c).schedSp = (s.cores c).schedSp
  pc : ∀ c, (s'.cores c).pc = (s.cores c).pc
  exec : ∀ c, (s'.cores c).exec = (s.cores c).exec
  nextPid : s'.nextPid = s.nextPid
  nextStack : s'.nextStack = s.nextStack
  parks : s'.parks = s.parks
  exited : s'.exited = s.exited
  born : s'.born = s.born

section Same

variable {s s' : Sys} {held : Core → Option Slot}

theorem TaskState.not_alive_done : TaskState.done.alive = false := rfl

theorem Same.alive (e : Same s s') (i : Slot) :
    (s'.tasks i).state.alive = (s.tasks i).state.alive := by
  obtain h | ⟨h, h'⟩ := e.state i
  · rw [h]
  · rw [h, h']

theorem Same.state_eq (e : Same s s') (i : Slot) {st : TaskState} (hst : st.alive = false) :
    (s'.tasks i).state = st ↔ (s.tasks i).state = st := by
  obtain h | ⟨h, h'⟩ := e.state i
  · rw [h]
  · constructor <;> (rintro rfl; simp_all)

theorem Same.owned (e : Same s s') (i : Slot) :
    (s'.tasks i).state.owned = (s.tasks i).state.owned := by
  simp only [TaskState.owned, e.alive i, e.state_eq i TaskState.not_alive_done]

theorem Same.latest (e : Same s s') (k : Option Nat) : latest s' k = latest s k := by
  simp only [Sched.latest, e.parks]

theorem Same.ok (e : Same s s') {h : Option Slot} {pc : Pc} (ok : pc.Ok s h) : pc.Ok s' h := by
  have filling {p : SpawnPc} {l : Spawning} (f : Filling s p l) : Filling s' p l := by
    constructor
    · rw [e.state_eq]
      · exact f.state
      · split <;> rfl
    · rw [e.pid]; exact f.pid
    · rw [e.inst, e.exited, e.parks]; exact f.inst
    · rw [e.sp]; exact f.sp
  cases pc with
  | spawn p l => cases p <;> first | exact trivial | exact filling ok
  | load me next => simpa only [Pc.Ok, e.sp, e.inst, e.latest] using ok
  | store me dst => simpa only [Pc.Ok, e.inst, e.latest] using ok
  | resume dst => simpa only [Pc.Ok, e.inst, e.latest] using ok
  | clear me dst => simpa only [Pc.Ok, e.sp, e.inst, e.latest] using ok
  | _ => exact ok

theorem Inv.same (inv : Inv s held) (e : Same s s') : Inv s' held where
  pid_range := by simpa only [e.pid, e.nextPid] using inv.pid_range
  pid_inj := by simpa only [e.pid] using inv.pid_inj
  pid_pos := by simpa only [e.pid, e.owned] using inv.pid_pos
  nextPid_pos := e.nextPid ▸ inv.nextPid_pos
  current := by simpa only [e.pid, e.current] using inv.current
  live_iff := by simpa only [e.live, e.pc, Holds] using inv.live_iff
  excl := by simpa only [e.pc, Holds] using inv.excl
  outgoing_ne := by simpa only [e.pc] using inv.outgoing_ne
  exec := by simpa only [e.pc, e.exec, e.inst] using inv.exec
  held_alive := by simpa only [e.pc, e.alive] using inv.held_alive
  held_done := by
    simpa only [e.pc, e.state_eq _ TaskState.not_alive_done] using inv.held_done
  outgoing_owned := by simpa only [e.pc, e.owned] using inv.outgoing_owned
  schedSp := by simpa only [e.schedSp, e.latest] using inv.schedSp
  pc c := by rw [e.pc]; exact e.ok (inv.pc c)
  inst_some := by simpa only [e.owned, e.inst] using inv.inst_some
  inst_lt := by simpa only [e.inst, e.nextStack] using inv.inst_lt
  inst_inj := by simpa only [e.inst] using inv.inst_inj
  parked := by simpa only [e.alive, e.live, e.sp, e.inst, e.latest] using inv.parked
  alive_not_exited := by simpa only [e.alive, e.inst, e.exited] using inv.alive_not_exited
  done_exited := by
    simpa only [e.state_eq _ TaskState.not_alive_done, e.inst, e.exited] using inv.done_exited
  stackRaw i k h := by
    obtain h' | h' := e.stackRaw i
    · rw [e.inst]; exact inv.stackRaw i k (h' ▸ h)
    · rw [h'] at h; cases h
  fresh := by simpa only [e.nextStack, e.exited, e.parks] using inv.fresh
  reserved_inj := by simpa only [e.pc] using inv.reserved_inj
  pendingPid := by simpa only [e.pc, e.nextPid, e.pid] using inv.pendingPid
  pendingStack := by
    simpa only [e.pc, e.nextStack, e.exited, e.parks, e.inst] using inv.pendingStack
  releasing := by simpa only [e.pc, e.exited, e.exec] using inv.releasing
  born := by simpa only [e.born, e.pid, e.owned] using inv.born
  born_inj := e.born ▸ inv.born_inj

end Same

end RPCortex.Sched
