import RPCortex.Lib.Run

/-! Ctrl+C and the console, `interrupt.cpp`.  The shell's task scans the wire while a command runs and reads
the line while none does; other tasks check the flag, claim the console and end.  Every byte that is polled,
stashed or delivered is a step of its own, and the calls that change the claim are one step each. -/

namespace RPCortex.Console

/-- `STASH_N`. -/
def stashN : Nat := 512

/-- What the shell's task does next. -/
inductive Shell
  | idle
  /-- The loop of `intr_check`, with the passes that are left. -/
  | scan (left : Nat)
  /-- The byte `c` was polled and is to be stashed. -/
  | put (c : UInt8) (left : Nat)
  /-- The reader found the stash empty, and reads the wire. -/
  | wire

/-- The claim: `g_input_held`, `g_input_owner`, `g_input_slot`, `g_input_timed` and `g_input_deadline`. -/
structure Claim where
  held : Bool
  owner : Int
  slot : Int
  timed : Bool
  deadline : Nat

/-- The state of the console.  `taken` is history: the bytes that were taken off the wire, and whether
`intr_check` took them for an interrupt. -/
structure State where
  pending : Bool
  buf : Nat → UInt8
  head : Nat
  tail : Nat
  claim : Claim
  clock : Nat
  shell : Shell
  wire : List UInt8
  delivered : List UInt8
  taken : List (UInt8 × Bool)

/-- The console after a start, before an input. -/
def start (input : List UInt8) : State where
  pending := false
  buf := fun _ => 0
  head := 0
  tail := 0
  claim := ⟨false, -1, -1, false, 0⟩
  clock := 0
  shell := .idle
  wire := input
  delivered := []
  taken := []

namespace State

variable (s : State)

/-- `stash_full`. -/
def stashFull : Bool := (s.head + 1) % stashN = s.tail

/-- `stash_put`. -/
def stashPut (c : UInt8) : State :=
  { s with buf := Function.update s.buf s.head c, head := (s.head + 1) % stashN }

/-- `intr_stashed`: the byte, unless the stash is empty. -/
def intrStashed : Option (UInt8 × State) :=
  if s.tail = s.head then none else some (s.buf s.tail, { s with tail := (s.tail + 1) % stashN })

/-- `claim_live`. -/
def claimLive : Bool :=
  s.claim.held && !(s.claim.timed && (s.clock + 2 ^ 32 - s.claim.deadline) % 2 ^ 32 < 2 ^ 31)

/-- `intr_input_may_read`. -/
def mayRead (pid : Int) : Bool := !s.claimLive || s.claim.owner = pid

/-- `claim_take` by the task `me` in a slot: a claim with a deadline in `ms`, or one without. -/
def claimTake (me slot : Int) (ms : Option Nat) : State :=
  if s.claimLive && s.claim.owner ≠ me then s
  else { s with claim := {
    held := true
    owner := me
    slot := slot
    timed := ms.isSome
    deadline := match ms with
      | none => s.claim.deadline
      | some ms => (s.clock + ms) % 2 ^ 32 } }

/-- `intr_input_renew`. -/
def renew (me : Int) (ms : Nat) : State :=
  if s.claim.held && s.claim.owner = me && s.claim.timed then
    { s with claim := { s.claim with deadline := (s.clock + ms) % 2 ^ 32 } }
  else s

/-- `intr_input_release`. -/
def release (me : Int) : State :=
  if s.claim.held && s.claim.owner = me then { s with claim := { s.claim with held := false, timed := false } }
  else s

/-- `intr_input_task_ended`. -/
def taskEnded (slot : Int) : State :=
  if s.claim.held && s.claim.slot = slot then { s with claim := { s.claim with held := false, timed := false } }
  else s

/-- `intr_check` of the shell up to its loop; `stop` is `task_should_stop`. -/
def beginCheck (shellPid : Int) (stop : Bool) : State :=
  if stop || s.pending || !s.mayRead shellPid then s else { s with shell := .scan 32 }

/-- The next byte of the wire, when one is waiting. -/
def poll (ready : Bool) : Option (UInt8 × List UInt8) :=
  match ready, s.wire with
  | true, c :: wire => some (c, wire)
  | _, _ => none

/-- The next step of the shell's task; `ready` says whether a byte is waiting. -/
def shellStep (ready : Bool) : State :=
  match s.shell with
  | .idle => s
  | .scan 0 => { s with shell := .idle }
  | .scan (left + 1) =>
    if s.stashFull then { s with shell := .idle }
    else
      match s.poll ready with
      | none => { s with shell := .idle }
      | some r =>
        if r.1 = 0x03 then
          { s with pending := true, shell := .idle, wire := r.2, taken := s.taken ++ [(r.1, true)] }
        else { s with shell := .put r.1 left, wire := r.2, taken := s.taken ++ [(r.1, false)] }
  | .put c left => { s.stashPut c with shell := .scan left }
  | .wire =>
    match s.poll ready with
    | none => { s with shell := .idle }
    | some r =>
      { s with
        shell := .idle
        wire := r.2
        delivered := s.delivered ++ [r.1]
        taken := s.taken ++ [(r.1, false)] }

/-- The reader's first step: the stash, and the wire behind it. -/
def beginRead : State :=
  match s.intrStashed with
  | some r => { r.2 with delivered := s.delivered ++ [r.1] }
  | none => { s with shell := .wire }

end State

/-- What can happen. -/
inductive Event
  /-- `intr_check` of the shell begins. -/
  | check (stop : Bool)
  /-- The reader, which runs in the shell's task, asks for a byte. -/
  | read
  /-- The shell's task goes on. -/
  | shell (ready : Bool)
  /-- `intr_check` of another task: it looks at the flags and reads nothing. -/
  | otherCheck (pid : Int)
  | raise
  | clear
  | claim (pid : Int)
  | claimFor (pid : Int) (ms : Nat)
  | renew (pid : Int) (ms : Nat)
  | release (pid : Int)
  | taskEnded (slot : Int)
  | tick

variable (shellPid : Int) (slotOf : Int → Int)

/-- An event; the shell's task begins something only when it has ended what it did. -/
def step (s : State) : Event → Option State
  | .check stop => match s.shell with
    | .idle => some (s.beginCheck shellPid stop)
    | _ => none
  | .read => match s.shell with
    | .idle => some s.beginRead
    | _ => none
  | .shell ready => some (s.shellStep ready)
  | .otherCheck _ => some s
  | .raise => some { s with pending := true }
  | .clear => some { s with pending := false }
  | .claim pid => some (s.claimTake pid (slotOf pid) none)
  | .claimFor pid ms => some (s.claimTake pid (slotOf pid) (some ms))
  | .renew pid ms => some (s.renew pid ms)
  | .release pid => some (s.release pid)
  | .taskEnded slot => some (s.taskEnded slot)
  | .tick => some { s with clock := (s.clock + 1) % 2 ^ 32 }

/-- The bytes in the stash, in order. -/
def State.stash (s : State) : List UInt8 :=
  (List.range ((s.head + stashN - s.tail) % stashN)).map fun i => s.buf ((s.tail + i) % stashN)

/-- The byte that was polled and is not stashed yet. -/
def State.hand (s : State) : List UInt8 :=
  match s.shell with
  | .put c _ => [c]
  | _ => []

/-- What is left of the taken bytes without the interrupts. -/
def kept (taken : List (UInt8 × Bool)) : List UInt8 := (taken.filter fun c => !c.2).map Prod.fst

end RPCortex.Console

/-! The input of the console is neither lost nor reordered, and a claim without a deadline stays where it
is. -/

namespace RPCortex.Console

open Lib

variable {shellPid : Int} {slotOf : Int → Int} {s s' : State} {input : List UInt8}

/-- The ring is in range, has room for a byte in hand, and the bytes lie in it, in the reader's hands and on
the wire in order; only interrupts are missing. -/
structure State.Orderly (s : State) (input : List UInt8) : Prop where
  head : s.head < stashN
  tail : s.tail < stashN
  room : s.hand ≠ [] → s.stashFull = false
  order : s.delivered ++ s.stash ++ s.hand = kept s.taken
  whole : s.taken.map Prod.fst ++ s.wire = input
  interrupts : ∀ c ∈ s.taken, c.2 = true → c.1 = 0x03
  empty : s.shell = .wire → s.tail = s.head

theorem orderly_start : (start input).Orderly input where
  head := Nat.succ_pos _
  tail := Nat.succ_pos _
  room no := absurd rfl no
  order := by simp [start, State.stash, State.hand, kept]
  whole := rfl
  interrupts _ no := absurd no List.not_mem_nil
  empty no := by cases no

theorem kept_append (taken : List (UInt8 × Bool)) (c : UInt8) (interrupt : Bool) :
    kept (taken ++ [(c, interrupt)]) = kept taken ++ if interrupt then [] else [c] := by
  unfold kept
  rw [List.filter_append, List.map_append]
  cases interrupt <;> rfl

/-- A byte that is put is the last of the stash. -/
theorem stash_stashPut (head : s.head < stashN) (tail : s.tail < stashN) (room : s.stashFull = false)
    (c : UInt8) : (s.stashPut c).stash = s.stash ++ [c] := by
  have notFull : (s.head + 1) % stashN ≠ s.tail := by simpa [State.stashFull] using room
  have grows : ((s.head + 1) % stashN + stashN - s.tail) % stashN =
      (s.head + stashN - s.tail) % stashN + 1 := by
    simp only [stashN] at *
    omega
  show (List.range (((s.head + 1) % stashN + stashN - s.tail) % stashN)).map _ = _
  rw [grows, List.range_succ, List.map_append, State.stash]
  refine congrArg₂ _ (List.map_congr_left fun i mem => ?_) ?_
  · refine Function.update_of_ne (?_ : (s.tail + i) % stashN ≠ s.head) ..
    have lt := List.mem_range.mp mem
    simp only [stashN] at *
    omega
  · have last : (s.tail + (s.head + stashN - s.tail) % stashN) % stashN = s.head := by
      simp only [stashN] at *
      omega
    show [Function.update s.buf s.head c ((s.tail + (s.head + stashN - s.tail) % stashN) % stashN)] = [c]
    rw [last, Function.update_self]

/-- The first byte of the stash is the one that is taken. -/
theorem stash_intrStashed {r : UInt8 × State} (head : s.head < stashN) (tail : s.tail < stashN)
    (taken : s.intrStashed = some r) : s.stash = r.1 :: r.2.stash := by
  unfold State.intrStashed at taken
  split at taken
  · cases taken
  rename_i some_
  obtain rfl := Option.some.inj taken
  have shrinks : (s.head + stashN - s.tail) % stashN =
      (s.head + stashN - (s.tail + 1) % stashN) % stashN + 1 := by
    simp only [stashN] at *
    omega
  rw [State.stash, shrinks, List.range_succ_eq_map, List.map_cons, List.map_map, Nat.add_zero,
    Nat.mod_eq_of_lt tail]
  refine congrArg₂ _ rfl (List.map_congr_left fun i _ => ?_)
  show s.buf ((s.tail + (i + 1)) % stashN) = s.buf (((s.tail + 1) % stashN + i) % stashN)
  rw [Nat.mod_add_mod, Nat.add_assoc, Nat.add_comm 1 i]

theorem poll_some {ready : Bool} {r : UInt8 × List UInt8} (h : s.poll ready = some r) :
    s.wire = r.1 :: r.2 := by
  unfold State.poll at h
  split at h
  · rename_i wire
    obtain rfl := Option.some.inj h
    exact wire
  · cases h

theorem State.Orderly.shellStep (o : s.Orderly input) (ready : Bool) : (s.shellStep ready).Orderly input := by
  have order := o.order
  have room := o.room
  unfold State.hand at order room
  unfold State.shellStep
  cases pc : s.shell with
  | idle => exact o
  | scan left =>
    rw [pc] at order
    have idle : { s with shell := .idle }.Orderly input :=
      ⟨o.head, o.tail, fun no => absurd rfl no, order, o.whole, o.interrupts, (fun no => by cases no)⟩
    cases left with
    | zero => exact idle
    | succ left =>
      simp only
      split
      · exact idle
      rename_i notFull
      split
      · exact idle
      rename_i r polled
      have wire := poll_some polled
      have whole := o.whole
      rw [wire] at whole
      have whole' : (s.taken.map Prod.fst ++ [r.1]) ++ r.2 = input := by rw [List.append_assoc]; exact whole
      split
      · rename_i interrupt
        refine ⟨o.head, o.tail, fun no => absurd rfl no, ?_, ?_, fun c mem flag => ?_, (fun no => by cases no)⟩
        · show s.delivered ++ s.stash ++ [] = kept (s.taken ++ [(r.1, true)])
          rw [kept_append, if_pos rfl, List.append_nil, List.append_nil]
          rw [List.append_nil] at order
          exact order
        · show (s.taken ++ [(r.1, true)]).map Prod.fst ++ r.2 = input
          rw [List.map_append]
          exact whole'
        · rcases List.mem_append.mp mem with mem | mem
          · exact o.interrupts c mem flag
          · obtain rfl := List.mem_singleton.mp mem
            exact interrupt
      · refine ⟨o.head, o.tail, fun _ => Bool.eq_false_iff.mpr notFull, ?_, ?_, fun c mem flag => ?_,
          (fun no => by cases no)⟩
        · show s.delivered ++ s.stash ++ [r.1] = kept (s.taken ++ [(r.1, false)])
          rw [List.append_nil] at order
          rw [kept_append, ← order]
          rfl
        · show (s.taken ++ [(r.1, false)]).map Prod.fst ++ r.2 = input
          rw [List.map_append]
          exact whole'
        · rcases List.mem_append.mp mem with mem | mem
          · exact o.interrupts c mem flag
          · obtain rfl := List.mem_singleton.mp mem
            cases flag
  | put c left =>
    rw [pc] at order room
    have free := room (List.cons_ne_nil _ _)
    refine ⟨Nat.mod_lt _ (by decide), o.tail, fun no => absurd rfl no, ?_, o.whole, o.interrupts, (fun no => by cases no)⟩
    show s.delivered ++ (s.stashPut c).stash ++ [] = kept s.taken
    rw [stash_stashPut o.head o.tail free, List.append_nil, ← List.append_assoc]
    exact order
  | wire =>
    rw [pc] at order
    simp only
    split
    · exact ⟨o.head, o.tail, fun no => absurd rfl no, order, o.whole, o.interrupts, (fun no => by cases no)⟩
    rename_i r polled
    have wire := poll_some polled
    have whole := o.whole
    rw [wire] at whole
    have none_ : s.stash = [] := by
      rw [State.stash, o.empty pc]
      have : (s.head + stashN - s.head) % stashN = 0 := by
        simp only [stashN]
        omega
      rw [this]
      rfl
    refine ⟨o.head, o.tail, fun no => absurd rfl no, ?_, ?_, fun c mem flag => ?_, (fun no => by cases no)⟩
    · show s.delivered ++ [r.1] ++ s.stash ++ [] = kept (s.taken ++ [(r.1, false)])
      rw [none_, List.append_nil, List.append_nil] at order
      rw [none_, kept_append, ← order, List.append_nil, List.append_nil]
      rfl
    · show (s.taken ++ [(r.1, false)]).map Prod.fst ++ r.2 = input
      rw [List.map_append, List.append_assoc]
      exact whole
    · rcases List.mem_append.mp mem with mem | mem
      · exact o.interrupts c mem flag
      · obtain rfl := List.mem_singleton.mp mem
        cases flag

theorem State.Orderly.beginRead (o : s.Orderly input) (idle : s.shell = .idle) : s.beginRead.Orderly input := by
  have order := o.order
  have hand : s.hand = [] := by rw [State.hand, idle]
  rw [hand, List.append_nil] at order
  unfold State.beginRead
  split
  · rename_i r taken
    have stash := stash_intrStashed o.head o.tail taken
    unfold State.intrStashed at taken
    split at taken
    · cases taken
    obtain rfl := Option.some.inj taken
    refine ⟨o.head, Nat.mod_lt _ (by decide), fun no => absurd hand no, ?_, o.whole, o.interrupts, fun no => ?_⟩
    · show s.delivered ++ [s.buf s.tail] ++ State.stash { s with tail := (s.tail + 1) % stashN } ++ s.hand = _
      rw [hand, List.append_nil, ← order, stash, List.append_assoc]
      rfl
    · rw [show s.shell = .idle from idle] at no
      cases no
  · rename_i none_
    refine ⟨o.head, o.tail, fun no => absurd rfl no, ?_, o.whole, o.interrupts, fun _ => ?_⟩
    · show s.delivered ++ s.stash ++ [] = kept s.taken
      rw [List.append_nil]
      exact order
    · unfold State.intrStashed at none_
      split at none_
      · assumption
      · cases none_

/-- What changes only the flag, the claim and the clock keeps the order. -/
theorem State.Orderly.aside (o : s.Orderly input) (pending : Bool) (claim : Claim) (clock : Nat) :
    { s with pending, claim, clock }.Orderly input :=
  ⟨o.head, o.tail, o.room, o.order, o.whole, o.interrupts, o.empty⟩

theorem State.Orderly.step {e : Event} (o : s.Orderly input) (taken : step shellPid slotOf s e = some s') :
    s'.Orderly input := by
  cases e with
  | check stop =>
    simp only [Console.step] at taken
    split at taken
    · rename_i idle
      obtain rfl := Option.some.inj taken
      unfold State.beginCheck
      split
      · exact o
      · have order := o.order
        unfold State.hand at order
        rw [idle] at order
        exact ⟨o.head, o.tail, fun no => absurd rfl no, order, o.whole, o.interrupts, (fun no => by cases no)⟩
    · cases taken
  | read =>
    simp only [Console.step] at taken
    split at taken
    · rename_i idle
      obtain rfl := Option.some.inj taken
      exact o.beginRead idle
    · cases taken
  | shell ready =>
    obtain rfl := Option.some.inj taken
    exact o.shellStep ready
  | otherCheck pid =>
    obtain rfl := Option.some.inj taken
    exact o
  | raise =>
    obtain rfl := Option.some.inj taken
    exact o.aside true s.claim s.clock
  | clear =>
    obtain rfl := Option.some.inj taken
    exact o.aside false s.claim s.clock
  | claim pid =>
    obtain rfl := Option.some.inj taken
    unfold State.claimTake
    split
    · exact o
    · exact o.aside s.pending _ s.clock
  | claimFor pid ms =>
    obtain rfl := Option.some.inj taken
    unfold State.claimTake
    split
    · exact o
    · exact o.aside s.pending _ s.clock
  | renew pid ms =>
    obtain rfl := Option.some.inj taken
    unfold State.renew
    split
    · exact o.aside s.pending _ s.clock
    · exact o
  | release pid =>
    obtain rfl := Option.some.inj taken
    unfold State.release
    split
    · exact o.aside s.pending _ s.clock
    · exact o
  | taskEnded slot =>
    obtain rfl := Option.some.inj taken
    unfold State.taskEnded
    split
    · exact o.aside s.pending _ s.clock
    · exact o
  | tick =>
    obtain rfl := Option.some.inj taken
    exact o.aside s.pending s.claim _

/-! ### Claims without a deadline -/

/-- The task `me` holds the console without a deadline. -/
structure State.Untimed (slotOf : Int → Int) (me : Int) (s : State) : Prop where
  held : s.claim.held = true
  owner : s.claim.owner = me
  slot : s.claim.slot = slotOf me
  timed : s.claim.timed = false

/-- The task neither releases its claim nor gives it a deadline, and its slot is not recycled. -/
def Leaves (slotOf : Int → Int) (me : Int) (_ : State) (e : Event) : Prop :=
  e ≠ .release me ∧ e ≠ .taskEnded (slotOf me) ∧ ∀ ms, e ≠ .claimFor me ms

theorem untimed_step {me : Int} {e : Event} (u : s.Untimed slotOf me) (leaves : Leaves slotOf me s e)
    (taken : step shellPid slotOf s e = some s') : s'.Untimed slotOf me := by
  obtain ⟨noRelease, noEnd, noDeadline⟩ := leaves
  have live : s.claimLive = true := by simp [State.claimLive, u.held, u.timed]
  have shellKeeps (ready : Bool) : (s.shellStep ready).claim = s.claim := by
    unfold State.shellStep
    split
    · rfl
    · rfl
    · split
      · rfl
      · split
        · rfl
        · split <;> rfl
    · rfl
    · split <;> rfl
  cases e with
  | check stop =>
    simp only [Console.step] at taken
    split at taken
    · obtain rfl := Option.some.inj taken
      unfold State.beginCheck
      split
      · exact u
      · exact ⟨u.held, u.owner, u.slot, u.timed⟩
    · cases taken
  | read =>
    simp only [Console.step] at taken
    split at taken
    · obtain rfl := Option.some.inj taken
      have same : s.beginRead.claim = s.claim := by
        unfold State.beginRead State.intrStashed
        split
        · rename_i r found
          split at found
          · cases found
          · obtain rfl := Option.some.inj found
            rfl
        · rfl
      exact ⟨same ▸ u.held, same ▸ u.owner, same ▸ u.slot, same ▸ u.timed⟩
    · cases taken
  | shell ready =>
    obtain rfl := Option.some.inj taken
    have same := shellKeeps ready
    exact ⟨same ▸ u.held, same ▸ u.owner, same ▸ u.slot, same ▸ u.timed⟩
  | otherCheck pid =>
    obtain rfl := Option.some.inj taken
    exact u
  | raise =>
    obtain rfl := Option.some.inj taken
    exact ⟨u.held, u.owner, u.slot, u.timed⟩
  | clear =>
    obtain rfl := Option.some.inj taken
    exact ⟨u.held, u.owner, u.slot, u.timed⟩
  | claim pid =>
    obtain rfl := Option.some.inj taken
    by_cases mine : pid = me
    · subst mine
      rw [State.claimTake, if_neg (by simp [u.owner])]
      exact ⟨rfl, rfl, rfl, rfl⟩
    · rw [State.claimTake, if_pos (by simp [live, u.owner, Ne.symm mine])]
      exact u
  | claimFor pid ms =>
    obtain rfl := Option.some.inj taken
    have other : pid ≠ me := fun same => noDeadline ms (by rw [same])
    rw [State.claimTake, if_pos (by simp [live, u.owner, Ne.symm other])]
    exact u
  | renew pid ms =>
    obtain rfl := Option.some.inj taken
    rw [State.renew, if_neg (by simp [u.timed])]
    exact u
  | release pid =>
    obtain rfl := Option.some.inj taken
    have other : pid ≠ me := fun same => noRelease (by rw [same])
    rw [State.release, if_neg (by simp [u.owner, Ne.symm other])]
    exact u
  | taskEnded slot =>
    obtain rfl := Option.some.inj taken
    have other : slot ≠ slotOf me := fun same => noEnd (by rw [same])
    rw [State.taskEnded, if_neg (by simp [u.slot, Ne.symm other])]
    exact u
  | tick =>
    obtain rfl := Option.some.inj taken
    exact ⟨u.held, u.owner, u.slot, u.timed⟩

/-- In every run, what was delivered, the stash and the wire are the input without the interrupts that were
seen; and a claim without a deadline stays with its task while that neither releases it nor gives it a
deadline and its slot is not recycled. -/
theorem console_orderly (shellPid : Int) (slotOf : Int → Int) (input : List UInt8) (s : State)
    (run : Run (step shellPid slotOf) (fun _ _ => True) (start input) s) :
    (s.taken.map Prod.fst ++ s.wire = input ∧ (∀ c ∈ s.taken, c.2 = true → c.1 = 0x03) ∧
      s.delivered ++ s.stash ++ s.hand ++ s.wire = kept s.taken ++ s.wire) ∧
    ∀ me t, s.Untimed slotOf me → Run (step shellPid slotOf) (Leaves slotOf me) s t → t.Untimed slotOf me := by
  have orderly : s.Orderly input :=
    run.invariant (P := fun t => t.Orderly input) orderly_start fun _ _ _ o _ taken => o.step taken
  refine ⟨⟨orderly.whole, orderly.interrupts, by rw [orderly.order]⟩, fun me t untimed on => ?_⟩
  exact on.invariant (P := fun t => t.Untimed slotOf me) untimed fun _ _ _ u leaves taken =>
    untimed_step u leaves taken

example : (start [0x61]).wire = [0x61] := by decide +kernel

/-- A byte goes to the stash and on to the reader, an interrupt is seen, and the next byte is read from the
wire. -/
def typed : List Event :=
  [.check false, .shell true, .shell false, .shell true, .clear, .read, .read, .shell true]

theorem console_orderly_typed : ∃ s : State,
    (s.taken.map Prod.fst ++ s.wire = [0x61, 0x03, 0x62] ∧ (∀ c ∈ s.taken, c.2 = true → c.1 = 0x03) ∧
      s.delivered ++ s.stash ++ s.hand ++ s.wire = kept s.taken ++ s.wire) ∧
    ∀ me t, s.Untimed id me → Run (step 1 id) (Leaves id me) s t → t.Untimed id me :=
  ⟨_, console_orderly 1 id [0x61, 0x03, 0x62] _ (Run.of_exec_get
    (show (exec (step 1 id) (start [0x61, 0x03, 0x62]) typed).isSome = true by decide +kernel)
    (by decide +kernel))⟩

/-- The owner asks again, with a deadline, and another task has the console when it has passed. -/
theorem not_all_claims_stay : ¬∀ (before later : List Event) (s t : State) (me : Int),
    exec (step 1 id) (start []) before = some s → s.Untimed id me →
      (∀ e ∈ later, e ≠ .release me ∧ e ≠ .taskEnded me) →
      exec (step 1 id) s later = some t → t.claim.held = true ∧ t.claim.owner = me := by
  intro stays
  have owner := (stays [.claim 5] [.claimFor 5 1, .tick, .claim 6] _ _ 5 rfl ⟨rfl, rfl, rfl, rfl⟩ (by simp) rfl).2
  exact absurd owner (by decide +kernel)

end RPCortex.Console
