import RPCortex.Sched.Start

/-! What the scheduler guarantees.  In runs without spawns, exits and reaps the two cores never
share a task and every resume is from the latest park.  With them, stacks are released under nobody,
slots and pids are handed out once and finished tasks stay finished in orderly runs; each of these
fails in a run with a stale write, given after the theorem. -/

namespace RPCortex.Sched

open Lib

section

variable {s t u : Sys} {held : Core → Option Slot}

/-! ### Two cores -/

/-- Slot `i`'s task is on core `c`: it is the core's current task, or the core is switching away
from it, or the core stands on its stack. -/
def OnCore (s : Sys) (c : Core) (i : Slot) : Prop :=
  cur s c = some i ∨ (s.cores c).pc.outgoing = some i ∨
    ∃ k, (s.cores c).exec = some k ∧ (s.tasks i).inst = some k

/-- No task is on both cores, `live` says whether it is on one, and a core that resumes its task
has the stack pointer that the task's latest park saved. -/
structure CoreSafe (s : Sys) : Prop where
  exclusive : ∀ c d i, OnCore s c i → OnCore s d i → c = d
  live : ∀ i, (s.tasks i).live = true ↔ ∃ c, OnCore s c i
  resumed : ∀ c dst, (s.cores c).pc = .resume dst →
    dst = latest s ((cur s c).bind fun i => (s.tasks i).inst)

theorem Inv.onCore (inv : Inv s held) {c : Core} {i : Slot} :
    OnCore s c i ↔ Holds s held c i := by
  constructor
  · rintro (h | h | ⟨k, hexec, hk⟩)
    · exact .inl (inv.cur_eq c ▸ h)
    · exact .inr h
    · by_contra hno
      exact inv.exec_ne hno hk hexec
  · rintro (h | h)
    · exact .inl ((inv.cur_eq c).trans h)
    · exact .inr (.inl h)

theorem Inv.coreSafe (inv : Inv s held) : CoreSafe s where
  exclusive c d i hc hd := inv.excl c d i (inv.onCore.mp hc) (inv.onCore.mp hd)
  live i := by simpa only [inv.onCore] using inv.live_iff i
  resumed c dst h := by
    have ok := inv.pc c
    rw [h] at ok
    rw [inv.cur_eq]
    exact ok

/-- However the steps of two cores interleave, yields, sleeps, kills and affinity changes keep each
task on one core and resume it from its latest park. -/
theorem calm_run_coreSafe (start : Start s) (run : Run step Calm s t) : CoreSafe t := by
  obtain ⟨held, inv⟩ := start.inv_of_run (start.orderly_of_calm run)
  exact inv.coreSafe

example : (exec step taskInit []).isSome = true := by decide +kernel

/-- Core 0 yields to the second task, and core 1 takes over the first one. -/
def swap : List (Core × Move) :=
  [(0, .call .yield 0)] ++ goes 0 1 ++ [(1, .call .yield 0)] ++ goes 1 1 ++ goes 0 3 ++
    [(1, .call .yield 0)] ++ goes 1 3

theorem calm_run_coreSafe_swap :
    CoreSafe ((exec step twoTasks swap).get (by decide +kernel)) :=
  calm_run_coreSafe twoTasks_start (.of_exec_get _ (by decide +kernel))

/-! ### Stacks -/

/-- The stack that the move gives back to the heap. -/
def releases (s : Sys) : Core × Move → Option Nat
  | (c, .go _) => (s.cores c).pc.releasing
  | _ => none

/-- The slot that the move reserves for a new task. -/
def handsOver (s : Sys) : Core × Move → Option Slot
  | (c, .go _) => match (s.cores c).pc with
    | .reserve _ => (freeSlot s).or (oldestDone s)
    | _ => none
  | _ => none

/-- A stack is given back, and a slot handed over, only when no core executes on it. -/
structure StackSafe (s : Sys) (a : Core × Move) : Prop where
  release : ∀ k, releases s a = some k → ∀ d, (s.cores d).exec ≠ some k
  handOver : ∀ i, handsOver s a = some i → (s.tasks i).live = false ∧
    ∀ d k, (s.tasks i).inst = some k → (s.cores d).exec ≠ some k

theorem Inv.stackSafe (inv : Inv s held) {a : Core × Move} (orderly : Orderly s a) :
    StackSafe s a := by
  obtain ⟨c, m⟩ := a
  have idle {i : Slot} (h : ∀ d, ¬Holds s held d i) : (s.tasks i).live = false ∧
      ∀ d k, (s.tasks i).inst = some k → (s.cores d).exec ≠ some k :=
    ⟨inv.live_of_idle h, fun d _ hk => inv.exec_ne (h d) hk⟩
  cases m with
  | go now =>
    refine ⟨fun k hk => (inv.releasing c k hk).2, fun i hi => ?_⟩
    replace orderly : (s.cores c).pc.orderly s = true := orderly
    simp only [handsOver] at hi
    cases hpc : (s.cores c).pc with
    | reserve affinity =>
      simp only [hpc] at hi orderly
      cases hfree : freeSlot s with
      | some j =>
        obtain rfl : j = i := by rw [hfree] at hi; exact Option.some.inj hi
        exact idle (inv.idle_of_not_owned (not_owned_of_free (freeSlot_some hfree)))
      | none =>
        simp only [hfree, Option.none_or, Pc.orderly, decide_eq_true_eq] at hi orderly
        exact idle (inv.idle_of_left (orderly i hi))
    | _ => simp [hpc] at hi
  | _ => exact ⟨by simp [releases], by simp [handsOver]⟩

/-- In an orderly run no stack is released or reused under a core that executes on it. -/
theorem orderly_run_stackSafe (start : Start s) (run : Run step Orderly s t) {a : Core × Move}
    (orderly : Orderly t a) : StackSafe t a := by
  obtain ⟨held, inv⟩ := start.inv_of_run run
  exact inv.stackSafe orderly

example : (exec step taskInit [(0, .call .yield 0)]).isSome = true := by decide +kernel

/-- The spawned task exits and core 1 leaves it; core 0 reaps it up to the release. -/
def exitThenReap : List (Core × Move) :=
  spawnRuns ++ [(1, .call .exit 0)] ++ goes 1 5 ++ [(0, .call (.reap 2) 0)] ++ goes 0 6

theorem orderly_run_stackSafe_reap :
    StackSafe ((exec step taskInit exitThenReap).get (by decide +kernel)) (0, .go 0) :=
  orderly_run_stackSafe taskInit_start (.of_exec_get _ (by decide +kernel)) (by decide +kernel)

/-- `task_reap` frees the stack of a task that has marked itself finished and still runs. -/
def reapBeforeLeaving : List (Core × Move) :=
  spawnRuns ++ [(1, .call .exit 0)] ++ goes 1 1 ++ [(0, .call (.reap 2) 0)] ++ goes 0 6

theorem not_all_runs_stackSafe :
    ¬∀ s t u a, Start s → Run step (fun _ _ => True) s t → step t a = some u → StackSafe t a := by
  intro h
  have safe := h taskInit ((exec step taskInit reapBeforeLeaving).get (by decide +kernel)) _
    (0, .go 0) taskInit_start (.of_exec_get _ (by decide +kernel))
    (Option.some_get (by decide +kernel)).symm
  exact safe.release 1 (by decide +kernel) 1 (by decide +kernel)

/-! ### Slots and pids -/

/-- Spawned tasks that own their slots are in different slots and have different pids. -/
def Unique (s : Sys) : Prop := s.born.Pairwise fun a b => a.slot ≠ b.slot ∧ a.pid ≠ b.pid

theorem Inv.unique (inv : Inv s held) : Unique s := by
  refine inv.born_inj.imp_of_mem fun {a b} ha hb hne => ⟨hne, fun hpid => hne ?_⟩
  obtain ⟨hpa, howned⟩ := inv.born a ha
  obtain ⟨hpb, -⟩ := inv.born b hb
  exact inv.pid_inj a.slot b.slot (by rw [hpa, hpb, hpid]) (inv.pid_pos _ howned)

/-- In an orderly run every successful spawn has a slot and a pid of its own. -/
theorem orderly_run_unique (start : Start s) (run : Run step Orderly s t) : Unique t := by
  obtain ⟨held, inv⟩ := start.inv_of_run run
  exact inv.unique

theorem orderly_run_unique_two :
    Unique ((exec step taskInit (spawns 0 .any ++ spawns 0 .any)).get (by decide +kernel)) :=
  orderly_run_unique taskInit_start (.of_exec_get _ (by decide +kernel))

/-- The spawned task and pid 1 both spawn; the second takes the slot whose state the first has just
zeroed. -/
def spawnIntoSpawn : List (Core × Move) :=
  spawnRuns ++ [(0, .call (.spawn .any) 0)] ++ goes 0 1 ++ [(0, .malloc true)] ++ goes 0 2 ++
    spawns 1 .any ++ goes 0 11

theorem not_all_runs_unique :
    ¬∀ s t, Start s → Run step (fun _ _ => True) s t → Unique t := by
  intro h
  have unique := h taskInit ((exec step taskInit spawnIntoSpawn).get (by decide +kernel))
    taskInit_start (.of_exec_get _ (by decide +kernel))
  revert unique
  unfold Unique
  decide +kernel

/-! ### Finished tasks -/

/-- The step from `s` to `u` leaves finished tasks finished, and no core resumes one in `u`. -/
structure Final (s u : Sys) : Prop where
  state : ∀ i, (s.tasks i).state = .done → (u.tasks i).state = .done ∨ (u.tasks i).state = .free ∨
    (u.tasks i).state = .blocked
  resumed : ∀ c dst k, (u.cores c).pc = .resume dst → dst.owner = some k → u.exited k = false

theorem Inv.resumed_not_exited (inv : Inv s held) {c : Core} {dst : Sp} {k : Nat}
    (hpc : (s.cores c).pc = .resume dst) (hk : dst.owner = some k) : s.exited k = false := by
  have ok := inv.pc c
  rw [hpc] at ok
  rw [show dst = _ from ok] at hk
  cases hheld : held c with
  | none => simp [hheld, latest] at hk
  | some i =>
    simp only [hheld, latest, Option.bind_some] at hk
    exact inv.alive_not_exited i k (inv.held_alive c i hheld (by rw [hpc]; rfl)) hk

/-- A state that a finished task's slot may pass to. -/
def TaskState.ended (st : TaskState) : Bool := st = .done || st = .free || st = .blocked

theorem not_alive_of_done {i : Slot} (h : (s.tasks i).state = .done) :
    ¬(s.tasks i).state.alive = true := by rw [h]; decide

theorem ended_upd {tasks : Slot → Task} {i j : Slot} {x : Task} (h : (tasks i).state = .done)
    (hx : i = j → x.state.ended) : (upd tasks j x i).state.ended := by
  rw [upd_apply]
  split
  · exact hx ‹_›
  · rw [h]; rfl

theorem ended_claim {c : Core} {me : Option Slot} {next i : Slot} (h : (s.tasks i).state = .done)
    (hnext : (s.tasks next).state.alive) : ((claim s c me next).tasks i).state.ended := by
  have ne : i ≠ next := by rintro rfl; exact not_alive_of_done h hnext
  unfold claim
  split
  · exact ended_upd h fun e => absurd e ne
  · exact ended_upd h fun e => absurd e ne

/-- A move leaves a finished task finished, or its slot free or reserved. -/
theorem ended_of_step (inv : Inv s held) {a : Core × Move} (orderly : Orderly s a)
    (h : step s a = some u) {i : Slot} (hi : (s.tasks i).state = .done) :
    (u.tasks i).state.ended := by
  have same : (s.tasks i).state.ended := by rw [hi]; rfl
  have remembered (c : Core) : ((remember s c).tasks i).state = .done := by rwa [remember_tasks]
  have apart {j : Slot} (hj : (s.tasks j).state.alive) : i ≠ j := by
    rintro rfl; exact not_alive_of_done hi hj
  obtain ⟨c, m⟩ := a
  cases m with
  | call op now =>
    simp only [Sched.step] at h
    split at h
    · obtain rfl := Option.some.inj h
      have kept : ((remember s c).tasks i).state.ended := by rw [remembered]; rfl
      cases op with
      | setAffinity pid affinity =>
        simp only [callOp]
        split
        · exact ended_upd hi fun e => e ▸ same
        · exact same
      | clearStop =>
        simp only [callOp]
        split
        · exact ended_upd (remembered c) fun e => e ▸ kept
        · exact kept
      | sleep ms => simp only [callOp]; split <;> exact kept
      | exit => simp only [callOp]; split <;> exact kept
      | markShell => simp only [callOp]; split <;> exact kept
      | _ => exact same
    · cases h
  | malloc ok =>
    simp only [Sched.step] at h
    split at h
    · obtain rfl := Option.some.inj h
      unfold mallocStep
      split <;> exact same
    · cases h
  | go now =>
    simp only [Sched.step, go] at h
    replace orderly : (s.cores c).pc.orderly s = true := orderly
    have ok := inv.pc c
    cases hpc : (s.cores c).pc with
    | user => rw [hpc] at h; cases h
    | sched parkAs =>
      rw [hpc] at h
      obtain rfl := Option.some.inj h
      have parked : ((parkMe (remember s c) (cur s c) parkAs).tasks i).state = .done := by
        cases cur s c with
        | none => exact remembered c
        | some m =>
          simp only [parkMe, Sys.setTask_tasks]
          split
          · subst i
            rw [remembered c, if_neg (by decide)]
            exact remembered c
          · exact remembered c
      unfold reschedule
      dsimp only
      split
      · rename_i next hnext
        exact ended_claim parked (pick_some hnext).2
      · have kept : ((parkMe (remember s c) (cur s c) parkAs).tasks i).state.ended := by
          rw [parked]; rfl
        unfold nothingElse
        split
        · exact kept
        · split
          · rename_i me _ hme
            refine ended_upd parked ?_
            rintro rfl
            rw [parked] at hme
            cases hme
          · exact kept
          · split <;> exact kept
          · exact kept
    | sleepWait me wake =>
      rw [hpc] at h ok
      obtain rfl := Option.some.inj h
      unfold sleepTurn
      split
      · exact ended_upd hi fun e =>
          absurd e (apart (inv.held_alive c me ok (by rw [hpc]; rfl)))
      · split
        · rename_i next hnext
          exact ended_claim hi (pick_some hnext).2
        · exact same
    | doneWait me =>
      rw [hpc] at h
      obtain rfl := Option.some.inj h
      unfold doneTurn
      split
      · rename_i next hnext
        exact ended_claim hi (pick_some hnext).2
      · exact same
    | load me next => rw [hpc] at h; exact Option.some.inj h ▸ same
    | store me dst =>
      rw [hpc] at h
      obtain rfl := Option.some.inj h
      cases me with
      | none => exact same
      | some me => exact ended_upd hi fun e => e ▸ same
    | clear me dst =>
      rw [hpc] at h
      exact Option.some.inj h ▸ ended_upd hi fun e => e ▸ same
    | resume dst => rw [hpc] at h; exact Option.some.inj h ▸ same
    | sleepWrite me wake =>
      rw [hpc] at h
      exact Option.some.inj h ▸ ended_upd hi fun e => e ▸ same
    | exitWrite me =>
      rw [hpc] at h
      exact Option.some.inj h ▸ ended_upd hi fun _ => rfl
    | lookup job pid n =>
      rw [hpc] at h
      obtain rfl := Option.some.inj h
      unfold lookupStep
      split <;> exact same
    | lookupPid job pid n =>
      rw [hpc] at h
      exact Option.some.inj h ▸ same
    | kill pc j =>
      rw [hpc] at h orderly
      obtain rfl := Option.some.inj h
      cases pc with
      | request => exact ended_upd hi fun e => e ▸ same
      | wake => exact ended_upd hi fun e => e ▸ same
      | ready => exact ended_upd hi fun e => absurd e (apart orderly)
      | _ => exact same
    | reap pc j =>
      rw [hpc] at h
      obtain rfl := Option.some.inj h
      cases pc with
      | dropStack => exact ended_upd hi fun e => e ▸ same
      | free => exact ended_upd hi fun _ => rfl
      | _ => exact same
    | reserve affinity =>
      rw [hpc] at h
      obtain rfl := Option.some.inj h
      unfold reserve
      split
      · exact ended_upd hi fun _ => rfl
      · split
        · exact ended_upd hi fun _ => rfl
        · exact same
    | spawn pc l =>
      rw [hpc] at h
      -- a slot that is being filled is not finished, so only its own state could change
      have ne (hp : pc ≠ .report) : i ≠ l.slot := by
        rintro rfl
        have := (inv.filling hpc hp).not_owned
        rw [hi] at this
        cases this
      cases pc with
      | alloc => cases h
      | release k => exact Option.some.inj h ▸ same
      | fetchPid => exact Option.some.inj h ▸ same
      | storePid => exact Option.some.inj h ▸ same
      | report => exact Option.some.inj h ▸ same
      | _ => exact Option.some.inj h ▸ ended_upd hi fun e => absurd e (ne (by decide))

/-- In an orderly run a finished task never runs again and its slot is never resurrected. -/
theorem orderly_run_final (start : Start s) (run : Run step Orderly s t) {a : Core × Move}
    (orderly : Orderly t a) (taken : step t a = some u) : Final t u := by
  obtain ⟨held, inv⟩ := start.inv_of_run run
  obtain ⟨held', inv'⟩ := inv.step orderly taken
  refine ⟨fun i hi => ?_, fun c dst k hpc hk => inv'.resumed_not_exited hpc hk⟩
  have := ended_of_step inv orderly taken hi
  simpa [TaskState.ended, or_assoc] using this

/-- The task that has exited is switched away from while another kills it. -/
def killWhileLeaving : List (Core × Move) :=
  spawnRuns ++ [(0, .call (.kill 2) 0)] ++ goes 0 5 ++ [(1, .call .exit 0)] ++ goes 1 3

theorem orderly_run_final_leaving :
    Final ((exec step taskInit killWhileLeaving).get (by decide +kernel))
      ((step ((exec step taskInit killWhileLeaving).get (by decide +kernel)) (1, .go 0)).get
        (by decide +kernel)) :=
  orderly_run_final taskInit_start (.of_exec_get _ (by decide +kernel))
    (a := (1, .go 0)) (by decide +kernel) (Option.some_get _).symm

/-- `task_kill` finds the spawned task asleep; the task wakes, exits and is switched away from; the
kill then marks it READY and core 1 resumes it. -/
def killFinished : List (Core × Move) :=
  spawnRuns ++ [(1, .call (.sleep 5) 0)] ++ goes 1 2 ++ [(0, .call (.kill 2) 0)] ++ goes 0 9 ++
    [(1, .go 5), (1, .call .exit 5)] ++ goes 1 5 ++ goes 0 2 ++ [(1, .call .yield 5)] ++ goes 1 2

theorem not_all_runs_final :
    ¬∀ s t u a, Start s → Run step (fun _ _ => True) s t → step t a = some u → Final t u := by
  intro h
  have final := h taskInit ((exec step taskInit killFinished).get (by decide +kernel)) _
    (1, .go 0) taskInit_start (.of_exec_get _ (by decide +kernel))
    (Option.some_get (by decide +kernel)).symm
  exact absurd (final.resumed 1 ⟨some 1, 1⟩ 1 (by decide +kernel) rfl) (by decide +kernel)

end

end RPCortex.Sched
