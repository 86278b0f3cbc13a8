import RPCortex.Sched.Preserve

/-! Where runs start, and which runs are orderly.  `Start s` describes a task table between two
operations; `task_init` leaves such a state.  Orderly runs from it keep the invariant, and a run
without spawns, exits and reaps is orderly, so nothing has to be assumed about it. -/

namespace RPCortex.Sched

open Lib

/-- A state in which no operation is under way: each core idles or executes a task of the table
that is on no other core, and every other task that may run was parked. -/
structure Start (s : Sys) : Prop where
  user : ∀ c, (s.cores c).pc = .user
  on : ∀ c, (s.cores c).current = -1 ∧ (s.cores c).exec = none ∨
    ∃ i, (s.tasks i).state.alive ∧ (s.cores c).current = (s.tasks i).pid ∧
      (s.cores c).exec = (s.tasks i).inst
  apart : ∀ c d, (s.cores c).current = (s.cores d).current → (s.cores c).current ≠ -1 → c = d
  live : ∀ i, (s.tasks i).live = true ↔ ∃ c, (s.cores c).current = (s.tasks i).pid ∧
    (s.tasks i).state.owned
  schedSp : ∀ c, (s.cores c).schedSp = none ∨ (s.cores c).schedSp = some (latest s none)
  pid_range : ∀ i, 0 ≤ (s.tasks i).pid ∧ (s.tasks i).pid < s.nextPid
  pid_inj : ∀ i j, (s.tasks i).pid = (s.tasks j).pid → 0 < (s.tasks i).pid → i = j
  pid_pos : ∀ i, (s.tasks i).state.owned → 0 < (s.tasks i).pid
  inst_some : ∀ i, (s.tasks i).state.owned → (s.tasks i).inst ≠ none
  inst_lt : ∀ i, ∀ k ∈ (s.tasks i).inst, k < s.nextStack
  inst_inj : ∀ i j, ∀ k ∈ (s.tasks i).inst, k ∈ (s.tasks j).inst → i = j
  parked : ∀ i, (s.tasks i).state.alive → (s.tasks i).live = false →
    (s.tasks i).sp = latest s (s.tasks i).inst
  exited : ∀ i, ∀ k ∈ (s.tasks i).inst, (s.tasks i).state.owned →
    (s.exited k = true ↔ (s.tasks i).state = .done)
  stackRaw : ∀ i, ∀ k ∈ (s.tasks i).stackRaw, k ∈ (s.tasks i).inst
  fresh : ∀ k, s.nextStack ≤ k → s.exited k = false ∧ s.parks k = 0
  born : ∀ b ∈ s.born, (s.tasks b.slot).pid = b.pid ∧ (s.tasks b.slot).state.owned
  born_inj : s.born.Pairwise fun a b => a.slot ≠ b.slot

section

variable {s t : Sys}

theorem Start.inv (start : Start s) : ∃ held, Inv s held := by
  have slot (c : Core) : ∃ h : Option Slot,
      (s.cores c).current = h.elim (-1) (fun i => (s.tasks i).pid) ∧
      (s.cores c).exec = h.bind (fun i => (s.tasks i).inst) ∧
      ∀ i, h = some i → (s.tasks i).state.alive := by
    obtain ⟨hc, hx⟩ | ⟨i, hst, hc, hx⟩ := start.on c
    · exact ⟨none, hc, hx, by simp⟩
    · exact ⟨some i, hc, hx, by rintro j ⟨⟩; exact hst⟩
  choose held current exec alive using slot
  have outgoing (c : Core) : (s.cores c).pc.outgoing = none := by rw [start.user]; rfl
  have finishing (c : Core) : (s.cores c).pc.finishing = false := by rw [start.user]; rfl
  have holds (c : Core) (i : Slot) : Holds s held c i ↔ held c = some i := by
    simp [Holds, outgoing]
  have heldOf {c : Core} {i : Slot} (h : (s.cores c).current = (s.tasks i).pid) :
      held c = some i := by
    have hcur := current c
    cases hheld : held c with
    | none =>
      rw [hheld] at hcur
      have := (start.pid_range i).1
      simp only [Option.elim_none] at hcur
      omega
    | some j =>
      rw [hheld] at hcur
      have := start.pid_inj j i (hcur.symm.trans h)
        (start.pid_pos j (TaskState.owned_of_alive (alive c j hheld)))
      rw [this]
  have apart {c d : Core} {i : Slot} (hc : held c = some i) (hd : held d = some i) : c = d := by
    have hcur := current c
    have hcur' := current d
    simp only [hc, hd, Option.elim_some] at hcur hcur'
    have := (start.pid_range i).1
    exact start.apart c d (hcur.trans hcur'.symm) (by omega)
  refine ⟨held, ?_⟩
  constructor
  case pid_range => exact start.pid_range
  case pid_inj => exact start.pid_inj
  case pid_pos => exact start.pid_pos
  case nextPid_pos => exact (start.pid_range 0).1.trans_lt (start.pid_range 0).2
  case current => exact current
  case live_iff =>
    intro i
    rw [start.live]
    refine exists_congr fun c => ?_
    rw [holds]
    constructor
    · exact fun h => heldOf h.1
    · intro h
      have := current c
      rw [h] at this
      exact ⟨this, TaskState.owned_of_alive (alive c i h)⟩
  case excl =>
    intro c d i hc hd
    exact apart ((holds c i).mp hc) ((holds d i).mp hd)
  case outgoing_ne => simp [outgoing]
  case exec => intro c; rw [start.user, exec c]; rfl
  case held_alive => exact fun c i h _ => alive c i h
  case held_done => intro c i h hf; rw [finishing] at hf; cases hf
  case outgoing_owned => simp [outgoing]
  case schedSp =>
    intro c sp h
    obtain h' | h' := start.schedSp c
    · rw [h'] at h; cases h
    · rw [h'] at h; exact (Option.some.inj h).symm
  case pc => intro c; rw [start.user]; trivial
  case inst_some => exact start.inst_some
  case inst_lt => exact start.inst_lt
  case inst_inj => exact start.inst_inj
  case parked => exact start.parked
  case alive_not_exited =>
    intro i k hi hk
    have := start.exited i k hk (TaskState.owned_of_alive hi)
    by_contra hex
    rw [Bool.not_eq_false] at hex
    rw [this.mp hex] at hi
    cases hi
  case done_exited =>
    intro i k hi hk
    exact (start.exited i k hk (TaskState.owned_iff.mpr (.inr hi))).mpr hi
  case stackRaw => exact start.stackRaw
  case fresh => exact start.fresh
  case reserved_inj => intro c d i h; rw [start.user] at h; cases h
  case pendingPid => intro c p h; rw [start.user] at h; cases h
  case pendingStack => intro c k h; rw [start.user] at h; cases h
  case releasing => intro c k h; rw [start.user] at h; cases h
  case born => exact start.born
  case born_inj => exact start.born_inj

/-- Orderly runs keep the invariant. -/
theorem Start.inv_of_run (start : Start s) (run : Run step Orderly s t) : ∃ held, Inv t held :=
  run.invariant (P := fun s => ∃ held, Inv s held) start.inv
    fun _ _ _ inv ok taken => inv.elim fun _ inv => inv.step ok taken

end

/-- `task_init` leaves a well-formed table. -/
theorem taskInit_start : Start taskInit := by
  constructor
  case fresh => exact fun _ _ => ⟨rfl, rfl⟩
  case born_inj => exact .nil
  all_goals decide

/-- A table with a second task, parked and free to run on either core. -/
def twoTasks : Sys :=
  { taskInit with
    tasks := upd (upd taskInit.tasks 0
      ⟨1, .running, .any, false, 0, ⟨none, 0⟩, none, true, some 0⟩) 1
      ⟨2, .ready, .any, false, 0, ⟨some 1, 0⟩, some 1, false, some 1⟩
    nextPid := 3
    nextStack := 2 }

theorem twoTasks_start : Start twoTasks := by
  constructor
  case fresh => exact fun _ _ => ⟨rfl, rfl⟩
  case born_inj => exact .nil
  all_goals decide

/-- Core `c` takes `n` steps of the operation it is in. -/
def goes (c : Core) (n : Nat) : List (Core × Move) := List.replicate n (c, .go 0)

/-- Core `c` runs a whole successful `task_spawn`. -/
def spawns (c : Core) (affinity : TaskAffinity) : List (Core × Move) :=
  [(c, .call (.spawn affinity) 0)] ++ goes c 1 ++ [(c, .malloc true)] ++ goes c 13

/-- Core 0 spawns a task, which core 1 then runs. -/
def spawnRuns : List (Core × Move) := spawns 0 .core1 ++ [(1, .call .yield 0)] ++ goes 1 4

/-- The operations that neither create nor end a task. -/
def Op.calm : Op → Bool
  | .yield | .sleep _ | .kill _ | .setAffinity .. | .clearStop | .markShell => true
  | .exit | .spawn _ | .reap _ => false

/-- A move of a run in which tasks only yield, sleep, are killed and change their affinity. -/
def Calm (_ : Sys) : Core × Move → Prop
  | (_, .call op _) => op.calm
  | _ => True

instance (s : Sys) : (a : Core × Move) → Decidable (Calm s a)
  | (_, .call ..) => inferInstanceAs (Decidable (_ = true))
  | (_, .go _) | (_, .malloc _) => .isTrue trivial

/-- The positions that a calm run reaches, with what makes `task_kill`'s writes orderly there. -/
def Pc.Calm (s : Sys) : Pc → Prop
  | .sched parkAs => parkAs.alive
  | .kill .wake t | .kill .ready t => (s.tasks t).state.alive
  | .lookup .reap .. | .lookupPid .reap .. | .exitWrite _ | .reap .. | .reserve _ | .spawn .. =>
    False
  | _ => True

section

variable {s s' : Sys} {c : Core}

/-- Every core is at a position of a calm run. -/
def CalmInv (s : Sys) : Prop := ∀ c, (s.cores c).pc.Calm s

/-- Core `c` moves on to a calm position and every task that may run still may. -/
structure Keeps (s s' : Sys) (c : Core) : Prop where
  alive : ∀ i, (s.tasks i).state.alive → (s'.tasks i).state.alive
  others : ∀ d, d ≠ c → (s'.cores d).pc = (s.cores d).pc
  pc : (s'.cores c).pc.Calm s'

theorem Pc.Calm.mono {pc : Pc} (h : pc.Calm s)
    (alive : ∀ i, (s.tasks i).state.alive → (s'.tasks i).state.alive) : pc.Calm s' := by
  cases pc with
  | kill pc t =>
    cases pc with
    | wake => exact alive t h
    | ready => exact alive t h
    | _ => trivial
  | lookup job pid i => cases job <;> exact h
  | lookupPid job pid i => cases job <;> exact h
  | _ => exact h

theorem Keeps.calmInv (k : Keeps s s' c) (inv : CalmInv s) : CalmInv s' := by
  intro d
  by_cases hd : d = c
  · rw [hd]; exact k.pc
  · rw [k.others d hd]
    exact (inv d).mono k.alive

theorem Keeps.goto {pc' : Pc} (h : pc'.Calm s) : Keeps s (s.goto c pc') c where
  alive _ h := h
  others d hd := by rw [Sys.goto_cores, if_neg hd]
  pc := by
    rw [Sys.goto_cores, if_pos rfl]
    exact h.mono fun _ h => h

theorem Keeps.setTask {t : Slot} {f : Task → Task} {pc' : Pc}
    (h : (s.tasks t).state.alive → (f (s.tasks t)).state.alive)
    (hpc : pc'.Calm (s.setTask t f)) : Keeps s ((s.setTask t f).goto c pc') c where
  alive i hi := by
    simp only [Sys.goto_tasks, Sys.setTask_tasks]
    split
    · subst i; exact h hi
    · exact hi
  others d hd := by rw [Sys.goto_cores, if_neg hd]; rfl
  pc := (Keeps.goto hpc).pc

/-- A change that moves no core. -/
theorem Keeps.of_tasks {u : Sys} (h : Keeps s' u c)
    (alive : ∀ i, (s.tasks i).state.alive → (s'.tasks i).state.alive)
    (pc : ∀ d, (s'.cores d).pc = (s.cores d).pc) : Keeps s u c where
  alive i hi := h.alive i (alive i hi)
  others d hd := (h.others d hd).trans (pc d)
  pc := h.pc

theorem claim_keeps {me : Option Slot} {next : Slot} : Keeps s (claim s c me next) c := by
  unfold claim
  split
  · exact .setTask (fun _ => rfl) trivial
  · constructor
    case alive =>
      intro i hi
      simp only [Sys.setCore_tasks, Sys.setTask_tasks]
      split
      · rfl
      · exact hi
    case others => intro d hd; simp [Sys.setCore_cores, hd]
    case pc => simp [Sys.setCore_cores, Pc.Calm]

theorem nothingElse_keeps {me : Option Slot} : Keeps s (nothingElse s c me) c := by
  unfold nothingElse
  split
  · exact .goto trivial
  · split
    · exact .setTask (fun _ => rfl) trivial
    · exact .goto trivial
    · split
      · constructor
        case alive => exact fun _ h => h
        case others => intro d hd; simp [backToSched, Sys.setCore_cores, hd]
        case pc => simp [backToSched, Sys.setCore_cores, Pc.Calm]
      · exact .goto trivial
    · exact .goto trivial

theorem reschedule_keeps {parkAs : TaskState} {now : BitVec 32} (h : parkAs.alive) :
    Keeps s (reschedule s c parkAs now) c := by
  have tasks : (remember s c).tasks = s.tasks := by
    unfold remember
    split <;> rfl
  have alive (i : Slot) (hi : (s.tasks i).state.alive) :
      ((parkMe (remember s c) (cur s c) parkAs).tasks i).state.alive := by
    cases cur s c with
    | none => rw [parkMe, tasks]; exact hi
    | some m =>
      simp only [parkMe, Sys.setTask_tasks, tasks]
      split
      · subst i
        split
        · exact h
        · exact hi
      · exact hi
  have pc (d : Core) : ((parkMe (remember s c) (cur s c) parkAs).cores d).pc = (s.cores d).pc := by
    rw [parkMe_cores, remember_pc]
  unfold reschedule
  dsimp only
  split
  · exact claim_keeps.of_tasks alive pc
  · exact nothingElse_keeps.of_tasks alive pc

theorem remember_tasks : (remember s c).tasks = s.tasks := by
  unfold remember
  split <;> rfl

theorem CalmInv.remember (inv : CalmInv s) : CalmInv (remember s c) := by
  intro d
  rw [remember_pc]
  exact (inv d).mono fun i h => by rwa [remember_tasks]

theorem CalmInv.setTask (inv : CalmInv s) {t : Slot} {f : Task → Task}
    (h : (f (s.tasks t)).state = (s.tasks t).state) : CalmInv (s.setTask t f) := by
  intro d
  refine (inv d).mono fun i hi => ?_
  rw [Sys.setTask_tasks]
  split
  · subst i; rwa [h]
  · exact hi

theorem CalmInv.goto (inv : CalmInv s) {pc' : Pc} (h : pc'.Calm s) : CalmInv (s.goto c pc') :=
  (Keeps.goto h).calmInv inv

theorem CalmInv.setTask_goto (inv : CalmInv s) {t : Slot} {f : Task → Task} {pc' : Pc}
    (h : (s.tasks t).state.alive → (f (s.tasks t)).state.alive)
    (hpc : pc'.Calm (s.setTask t f)) : CalmInv ((s.setTask t f).goto c pc') :=
  (Keeps.setTask h hpc).calmInv inv

/-- A calm move keeps every core calm. -/
theorem CalmInv.step (inv : CalmInv s) {a : Core × Move} (calm : Calm s a)
    (h : step s a = some s') : CalmInv s' := by
  obtain ⟨c, m⟩ := a
  have hc := inv c
  cases m with
  | call op now =>
    simp only [Sched.step] at h
    split at h
    · obtain rfl := Option.some.inj h
      cases op with
      | yield => exact inv.goto rfl
      | sleep ms =>
        simp only [callOp]
        split
        · exact inv.remember.goto trivial
        · exact inv.remember
      | kill pid => exact inv.goto trivial
      | setAffinity pid affinity =>
        simp only [callOp]
        split
        · exact inv.setTask rfl
        · exact inv
      | clearStop =>
        simp only [callOp]
        split
        · exact inv.remember.setTask rfl
        · exact inv.remember
      | markShell =>
        simp only [callOp]
        split
        · exact fun d => (inv.remember d).mono fun _ h => h
        · exact inv.remember
      | _ => cases calm
    · cases h
  | malloc ok =>
    simp only [Sched.step] at h
    split at h
    · rename_i hpc
      rw [hpc] at hc
      exact hc.elim
    · cases h
  | go now =>
    simp only [Sched.step, go] at h
    cases hpc : (s.cores c).pc with
    | user => rw [hpc] at h; cases h
    | sched parkAs =>
      rw [hpc] at h hc
      exact Option.some.inj h ▸ (reschedule_keeps hc).calmInv inv
    | sleepWait me wake =>
      rw [hpc] at h
      obtain rfl := Option.some.inj h
      unfold sleepTurn
      split
      · exact inv.setTask_goto (fun _ => rfl) trivial
      · split
        · exact claim_keeps.calmInv inv
        · exact inv
    | doneWait me =>
      rw [hpc] at h
      obtain rfl := Option.some.inj h
      unfold doneTurn
      split
      · exact claim_keeps.calmInv inv
      · exact inv
    | load me next =>
      rw [hpc] at h
      exact Option.some.inj h ▸ inv.goto trivial
    | store me dst =>
      rw [hpc] at h
      obtain rfl := Option.some.inj h
      cases me with
      | none =>
        refine Keeps.calmInv (s := s) (c := c) ⟨fun _ h => h, fun d hd => ?_, ?_⟩ inv
        · simp [storeSp, Sys.setCore_cores, hd]
        · simp [storeSp, Sys.setCore_cores, Pc.Calm]
      | some me => exact inv.setTask_goto id trivial
    | clear me dst =>
      rw [hpc] at h
      obtain rfl := Option.some.inj h
      refine Keeps.calmInv (s := s) (c := c) ⟨fun i hi => ?_, fun d hd => ?_, ?_⟩ inv
      · simp only [clearLive, Sys.setCore_tasks, Sys.setTask_tasks]
        split
        · subst i; exact hi
        · exact hi
      · simp [clearLive, Sys.setCore_cores, hd]
      · simp [clearLive, Sys.setCore_cores, Pc.Calm]
    | resume dst =>
      rw [hpc] at h
      exact Option.some.inj h ▸ inv.goto trivial
    | sleepWrite me wake =>
      rw [hpc] at h
      exact Option.some.inj h ▸ inv.setTask_goto id rfl
    | lookup job pid i =>
      rw [hpc] at h hc
      obtain rfl := Option.some.inj h
      cases job with
      | reap => exact hc.elim
      | kill =>
        unfold lookupStep
        split
        · split <;> exact inv.goto trivial
        · exact inv.goto trivial
    | lookupPid job pid i =>
      rw [hpc] at h hc
      obtain rfl := Option.some.inj h
      cases job with
      | reap => exact hc.elim
      | kill =>
        unfold lookupPidStep
        split <;> exact inv.goto trivial
    | kill pc t =>
      rw [hpc] at h hc
      obtain rfl := Option.some.inj h
      cases pc with
      | asleep =>
        unfold killStep
        dsimp only
        split
        · rename_i hst
          refine inv.goto ?_
          show (s.tasks t).state.alive
          rw [hst]; rfl
        · exact inv.goto trivial
      | request => exact inv.setTask_goto id trivial
      | wake =>
        refine inv.setTask_goto id ?_
        show ((s.setTask t fun k => { k with wakeAt := now }).tasks t).state.alive
        rw [Sys.setTask_tasks, if_pos rfl]
        exact hc
      | ready => exact inv.setTask_goto (fun _ => rfl) trivial
      | _ =>
        unfold killStep
        dsimp only
        split <;> exact inv.goto trivial
    | _ => rw [hpc] at hc; exact hc.elim

/-- In a calm run every write of `task_kill` meets its condition. -/
theorem CalmInv.orderly (inv : CalmInv s) (a : Core × Move) : Orderly s a := by
  obtain ⟨c, m⟩ := a
  have hc := inv c
  cases m with
  | go now =>
    show (s.cores c).pc.orderly s = true
    cases hpc : (s.cores c).pc with
    | kill pc t =>
      rw [hpc] at hc
      cases pc <;> first | exact hc | rfl
    | reserve affinity => rw [hpc] at hc; exact hc.elim
    | reap pc t => rw [hpc] at hc; exact hc.elim
    | spawn pc l => rw [hpc] at hc; exact hc.elim
    | _ => rfl
  | _ => trivial

/-- Calm runs are orderly. -/
theorem Start.orderly_of_calm {t : Sys} (start : Start s) (run : Run RPCortex.Sched.step Calm s t) :
    Run RPCortex.Sched.step Orderly s t := by
  have calm : CalmInv s := fun c => by rw [start.user]; trivial
  exact run.mono calm (fun _ _ _ inv ok taken => inv.step ok taken) fun _ a inv _ => inv.orderly a

end

end RPCortex.Sched
