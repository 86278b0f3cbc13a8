import RPCortex.Sched.Start

/-! The scheduler with its millisecond clock.  The clock counts without bound and the code sees its low 32 bits; with it
runs what a reader of `task_sleep_ms` keeps in mind: when each task's last sleep is over, and which tasks `task_kill` has
written to. -/

namespace RPCortex.Sched

open Lib

/-- The operations read the clock in this move. -/
def Move.at (now : BitVec 32) : Move → Move
  | .call op _ => .call op now
  | .go _ => .go now
  | .malloc ok => .malloc ok

/-- The scheduler at a time.  Ghost: `deadline i` is when the last sleep of the task in slot `i` is over, by the unbounded
clock, and `asked i` that `task_kill` has written to it. -/
structure Timed where
  sys : Sys
  clock : Nat
  deadline : Slot → Nat
  asked : Slot → Bool

/-- The clock's count as the code reads it. -/
def millis (clock : Nat) : BitVec 32 := BitVec.ofNat 32 clock

/-- What the move does to the deadlines: a sleep sets its caller's, and a task starts without one. -/
def deadlineAfter (s : Sys) (clock : Nat) (deadline : Slot → Nat) (c : Core) : Move → Slot → Nat
  | .call (.sleep ms) _ => match cur s c with
    | some me => upd deadline me (clock + ms.toNat)
    | none => deadline
  | .go _ => match (s.cores c).pc with
    | .spawn .publish l => upd deadline l.slot 0
    | _ => deadline
  | _ => deadline

/-- What the move does to the record of the tasks that were asked to stop. -/
def askedAfter (s : Sys) (asked : Slot → Bool) (c : Core) : Move → Slot → Bool
  | .go _ => match (s.cores c).pc with
    | .kill .request t | .kill .wake t | .kill .ready t => upd asked t true
    | .spawn .publish l => upd asked l.slot false
    | _ => asked
  | _ => asked

/-- Some milliseconds pass, and a core makes a move. -/
def Timed.step (t : Timed) : Nat × Core × Move → Option Timed
  | (passed, c, m) =>
    let clock := t.clock + passed
    (Sched.step t.sys (c, m.at (millis clock))).map fun sys =>
      ⟨sys, clock, deadlineAfter t.sys clock t.deadline c m, askedAfter t.sys t.asked c m⟩

/-- Where every run starts, at some reading of the clock. -/
def Timed.init (clock : Nat) : Timed := ⟨taskInit, clock, fun _ => 0, fun _ => false⟩

/-- The move asks for a sleep of at most half the range of the clock, if for any. -/
def Move.short : Move → Prop
  | .call (.sleep ms) _ => ms.toNat ≤ 2 ^ 31
  | _ => True

instance : (m : Move) → Decidable m.short
  | .call op _ => by cases op <;> (unfold Move.short; infer_instance)
  | .go _ | .malloc _ => .isTrue trivial

/-- The move acts on what is still so, and does not sleep for too long. -/
def InTime (t : Timed) : Nat × Core × Move → Prop
  | (_, c, m) => Orderly t.sys (c, m) ∧ m.short

instance (t : Timed) : (a : Nat × Core × Move) → Decidable (InTime t a)
  | (_, _, _) => inferInstanceAs (Decidable (_ ∧ _))

theorem due_deadline {clock deadline : Nat} (near : deadline ≤ clock + 2 ^ 31)
    (reached : due (millis clock) (millis deadline) = true) : deadline ≤ clock := by
  by_contra early
  have positive := of_decide_eq_true reached
  rw [millis, millis, BitVec.toInt_eq_toNat_cond, BitVec.toNat_sub, BitVec.toNat_ofNat, BitVec.toNat_ofNat] at positive
  omega

theorem millis_add (clock : Nat) (ms : BitVec 32) : millis clock + ms = millis (clock + ms.toNat) := by
  rw [millis, millis, BitVec.ofNat_add, BitVec.ofNat_toNat, BitVec.setWidth_eq]

/-! ### A task and its deadline -/

/-- Slot `i`'s task is core `c`'s current one. -/
def At (s : Sys) (c : Core) (i : Slot) : Prop := (s.cores c).current = (s.tasks i).pid

namespace Pc

/-- In a sleep, and not parked yet. -/
def dozing : Pc → Bool
  | .sched .sleeping | .sleepWrite .. => true
  | _ => false

/-- Waiting the deadline out. -/
def waiting : Pc → Bool
  | .sleepWait .. => true
  | _ => false

/-- The deadline among the locals. -/
def carries : Pc → Option (BitVec 32)
  | .sleepWrite _ wake | .sleepWait _ wake => some wake
  | _ => none

/-- Not in a sleep. -/
def awake (pc : Pc) : Bool := !pc.dozing && !pc.waiting

theorem carries_of_awake {pc : Pc} (h : pc.awake) : pc.carries = none := by
  cases pc <;> first | rfl | cases h

end Pc

/-- What ties a task that was not asked to stop to its deadline: it runs unless it sleeps or waits to be picked, every
copy of its deadline is right, and until the deadline is reached it is in its sleep. -/
structure Rest (s : Sys) (clock deadline : Nat) (i : Slot) : Prop where
  near : deadline ≤ clock + 2 ^ 31
  running : ∀ d, At s d i → (s.cores d).pc.waiting = false → (s.tasks i).state = .running
  wakes : (s.tasks i).state = .sleeping → (s.tasks i).wakeAt = millis deadline
  written : ∀ d wake, At s d i → (s.cores d).pc.carries = some wake → wake = millis deadline
  parking : ∀ d, At s d i → (s.cores d).pc = .sched .sleeping → (s.tasks i).wakeAt = millis deadline
  asleep : deadline ≤ clock ∨ (s.tasks i).state = .sleeping ∨ ∃ d, At s d i ∧ (s.cores d).pc.dozing = true

/-- The same of a task that gives its core up. -/
structure Parked (s : Sys) (clock deadline : Nat) (i : Slot) : Prop where
  near : deadline ≤ clock + 2 ^ 31
  wakes : (s.tasks i).state = .sleeping → (s.tasks i).wakeAt = millis deadline
  asleep : deadline ≤ clock ∨ (s.tasks i).state = .sleeping

section

variable {s s' : Sys} {held : Core → Option Slot} {c : Core} {clock clock' deadline : Nat} {i me next : Slot}

theorem Inv.at_iff (inv : Inv s held) (owned : (s.tasks i).state.owned) {d : Core} : At s d i ↔ held d = some i := by
  have pos := inv.pid_pos i owned
  have current := inv.current d
  constructor
  · intro here
    rw [At, current] at here
    cases on : held d with
    | none =>
      rw [on, Option.elim_none] at here
      omega
    | some j =>
      rw [on, Option.elim_some] at here
      rw [inv.pid_inj j i here (by omega)]
  · intro on
    rw [At, current, on, Option.elim_some]

theorem Inv.at_excl (inv : Inv s held) (owned : (s.tasks i).state.owned) {d e : Core} (here : At s d i)
    (there : At s e i) : d = e :=
  inv.excl d e i (.inl ((inv.at_iff owned).mp here)) (.inl ((inv.at_iff owned).mp there))

theorem Rest.later (r : Rest s clock deadline i) (later : clock ≤ clock') : Rest s clock' deadline i where
  near := r.near.trans (Nat.add_le_add_right later _)
  running := r.running
  wakes := r.wakes
  written := r.written
  parking := r.parking
  asleep := r.asleep.imp_left fun reached => reached.trans later

/-- What a change leaves alone, where each core at the task stays where it was or is in no sleep before and after. -/
theorem Rest.frame (r : Rest s clock deadline i) (state : (s'.tasks i).state = (s.tasks i).state)
    (wakeAt : (s'.tasks i).wakeAt = (s.tasks i).wakeAt)
    (cores : ∀ d, At s d i ∨ At s' d i → At s d i ∧ At s' d i ∧
      ((s'.cores d).pc = (s.cores d).pc ∨ (s.cores d).pc.awake = true ∧ (s'.cores d).pc.awake = true)) :
    Rest s' clock deadline i := by
  have awake_iff (pc : Pc) : pc.awake = true ↔ pc.dozing = false ∧ pc.waiting = false := by
    rw [Pc.awake, Bool.and_eq_true, Bool.not_eq_true', Bool.not_eq_true']
  constructor
  case near => exact r.near
  case running =>
    intro d here waits
    rw [state]
    obtain ⟨was, -, same | ⟨awake, -⟩⟩ := cores d (.inr here)
    · exact r.running d was (same ▸ waits)
    · exact r.running d was ((awake_iff _).mp awake).2
  case wakes =>
    rw [state, wakeAt]
    exact r.wakes
  case written =>
    intro d wake here carried
    obtain ⟨was, -, same | ⟨-, awake⟩⟩ := cores d (.inr here)
    · exact r.written d wake was (same ▸ carried)
    · rw [Pc.carries_of_awake awake] at carried
      cases carried
  case parking =>
    intro d here parks
    rw [wakeAt]
    obtain ⟨was, -, same | ⟨-, awake⟩⟩ := cores d (.inr here)
    · exact r.parking d was (same ▸ parks)
    · rw [parks] at awake
      cases awake
  case asleep =>
    rw [state]
    refine r.asleep.imp_right fun rest => rest.imp_right ?_
    rintro ⟨d, here, dozes⟩
    obtain ⟨-, is, same | ⟨awake, -⟩⟩ := cores d (.inl here)
    · exact ⟨d, is, by rwa [same]⟩
    · rw [((awake_iff _).mp awake).1] at dozes
      cases dozes

/-- A change of the table that leaves the task's own fields and the cores alone. -/
theorem Rest.of_eq (r : Rest s clock deadline i) (pid : (s'.tasks i).pid = (s.tasks i).pid)
    (state : (s'.tasks i).state = (s.tasks i).state) (wakeAt : (s'.tasks i).wakeAt = (s.tasks i).wakeAt)
    (cores : ∀ d, (s'.cores d).current = (s.cores d).current ∧ (s'.cores d).pc = (s.cores d).pc) :
    Rest s' clock deadline i := by
  have here (d : Core) : At s' d i ↔ At s d i := by
    rw [At, At, pid, (cores d).1]
  refine r.frame state wakeAt fun d at_ => ?_
  rw [here d, or_self] at at_
  exact ⟨at_, (here d).mpr at_, .inl (cores d).2⟩

/-- The core that moves is not at the task. -/
theorem Rest.elsewhere (r : Rest s clock deadline i) (pid : (s'.tasks i).pid = (s.tasks i).pid)
    (state : (s'.tasks i).state = (s.tasks i).state) (wakeAt : (s'.tasks i).wakeAt = (s.tasks i).wakeAt)
    (others : ∀ d, d ≠ c → (s'.cores d).current = (s.cores d).current ∧ (s'.cores d).pc = (s.cores d).pc)
    (before : ¬At s c i) (after : ¬At s' c i) : Rest s' clock deadline i := by
  refine r.frame state wakeAt fun d at_ => ?_
  by_cases eq : d = c
  · rw [eq] at at_
    exact absurd at_ (not_or.mpr ⟨before, after⟩)
  · have here : At s' d i ↔ At s d i := by
      rw [At, At, pid, (others d eq).1]
    rw [here, or_self] at at_
    exact ⟨at_, here.mpr at_, .inl (others d eq).2⟩

end

end RPCortex.Sched
