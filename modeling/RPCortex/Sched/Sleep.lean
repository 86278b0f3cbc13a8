import RPCortex.Sched.Clock

/-! Sleeps that are slept out.  A task leaves its sleep in three ways: a core picks it, it waits its deadline out in place,
or it hands its core over and is picked later.  In every run that acts on what is still so and asks for no sleep of more
than half the range of the clock, none of the three happens before the deadline. -/

namespace RPCortex.Sched

open Lib

/-- Every task that was not asked to stop keeps its deadline. -/
def Rests (s : Sys) (clock : Nat) (deadline : Slot → Nat) (asked : Slot → Bool) : Prop :=
  ∀ i, (s.tasks i).state.alive → asked i = false → Rest s clock (deadline i) i

section

variable {s s' : Sys} {held : Core → Option Slot} {c : Core} {clock clock' : Nat} {deadline : Slot → Nat}
  {asked : Slot → Bool} {i next : Slot} {me : Option Slot}

/-! ### Where a task is -/

theorem at_congr {d : Core} (current : (s'.cores d).current = (s.cores d).current)
    (pid : (s'.tasks i).pid = (s.tasks i).pid) : At s' d i ↔ At s d i := by
  rw [At, At, pid, current]

/-- A core is at one task only. -/
theorem Inv.not_at (inv : Inv s held) {m : Slot} (on : held c = some m) (ne : i ≠ m)
    (owned : (s.tasks i).state.owned) : ¬At s c i := by
  intro here
  have held_i := (inv.at_iff owned).mp here
  rw [on] at held_i
  exact ne (Option.some.inj held_i).symm

/-! ### Picking -/

theorem claim_tasks (ne : me ≠ some next) :
    (claim s c me next).tasks = upd s.tasks next { s.tasks next with state := .running, live := true } := by
  rw [claim, if_neg ne]
  rfl

theorem claim_cores (ne : me ≠ some next) : (claim s c me next).cores =
    upd s.cores c { s.cores c with current := (s.tasks next).pid, pc := .load me next } := by
  rw [claim, if_neg ne]
  rfl

theorem pick_runnable {after : Int} {now : BitVec 32} (picked : pick s c after now = some next) :
    (s.tasks next).state = .ready ∨ (s.tasks next).state = .sleeping ∧ due now (s.tasks next).wakeAt = true := by
  have runnable := List.find?_some picked
  simp only [runnableOn, Bool.and_eq_true] at runnable
  obtain ⟨-, ⟨-, state⟩, -⟩ := runnable
  cases h : (s.tasks next).state <;> simp_all

/-- A core claims the task it picked: that task's deadline is reached, and the one it leaves is parked. -/
theorem rests_claim (inv : Inv s held) {after : Int} (picked : pick s c after (millis clock) = some next)
    (rests : ∀ i, held c ≠ some i → (s.tasks i).state.alive → asked i = false → Rest s clock (deadline i) i)
    (mine : ∀ i, held c = some i → (s.tasks i).state.alive → asked i = false → Parked s clock (deadline i) i) :
    Rests (claim s c (held c) next) clock deadline asked := by
  have live := (pick_some picked).1
  have ne : held c ≠ some next := fun on => inv.not_holds live c (.inl on)
  have nextOwned := TaskState.owned_of_alive (pick_some picked).2
  have core {d : Core} (eq : d ≠ c) : (claim s c (held c) next).cores d = s.cores d := by
    rw [claim_cores ne, upd_ne eq]
  have own : (claim s c (held c) next).cores c =
      { s.cores c with current := (s.tasks next).pid, pc := .load (held c) next } := by
    rw [claim_cores ne, upd_same]
  intro i alive unasked
  by_cases eq : i = next
  · subst eq
    have rest := rests i ne (pick_some picked).2 unasked
    have nobody (d : Core) : ¬At s d i := fun here => inv.not_holds live d (.inl ((inv.at_iff nextOwned).mp here))
    have task : (claim s c (held c) i).tasks i = { s.tasks i with state := .running, live := true } := by
      rw [claim_tasks ne, upd_same]
    have here {d : Core} (at_ : At (claim s c (held c) i) d i) : d = c := by
      by_contra eq
      rw [At, core eq, task] at at_
      exact nobody d at_
    constructor
    case near => exact rest.near
    case running => exact fun _ _ _ => by rw [task]
    case wakes => exact fun sleeping => by rw [task] at sleeping; cases sleeping
    case written =>
      intro d wake at_ carried
      rw [here at_, own] at carried
      cases carried
    case parking =>
      intro d at_ parks
      rw [here at_, own] at parks
      cases parks
    case asleep =>
      rcases pick_runnable picked with ready | ⟨sleeping, reached⟩
      · rcases rest.asleep with reached | sleeping | ⟨d, at_, -⟩
        · exact .inl reached
        · rw [ready] at sleeping
          cases sleeping
        · exact absurd at_ (nobody d)
      · rw [rest.wakes sleeping] at reached
        exact .inl (due_deadline rest.near reached)
  · have task : (claim s c (held c) next).tasks i = s.tasks i := by
      rw [claim_tasks ne, upd_ne eq]
    rw [task] at alive
    have owned := TaskState.owned_of_alive alive
    have gone : ¬At (claim s c (held c) next) c i := by
      rw [At, own, task]
      exact fun pid => eq (inv.pid_inj i next pid.symm (inv.pid_pos i owned))
    by_cases on : held c = some i
    · have parked := mine i on alive unasked
      have nobody (d : Core) : ¬At (claim s c (held c) next) d i := by
        intro here
        by_cases eq : d = c
        · exact gone (eq ▸ here)
        · rw [At, core eq, task] at here
          exact eq (inv.at_excl owned here ((inv.at_iff owned).mpr on))
      constructor
      case near => exact parked.near
      case running => exact fun d here => absurd here (nobody d)
      case wakes =>
        rw [task]
        exact parked.wakes
      case written => exact fun d _ here => absurd here (nobody d)
      case parking => exact fun d here => absurd here (nobody d)
      case asleep =>
        rw [task]
        exact parked.asleep.imp_right .inl
    · refine (rests i on alive unasked).elsewhere (c := c) (by rw [task]) (by rw [task]) (by rw [task])
        (fun d ne => by rw [core ne]; exact ⟨rfl, rfl⟩) (fun here => on ((inv.at_iff owned).mp here)) gone

/-! ### Giving a core up -/

/-- A task that is parked, before anything was picked. -/
theorem parked_me (inv : Inv s held) (rests : Rests s clock deadline asked) {parkAs : TaskState}
    (hpc : (s.cores c).pc = .sched parkAs) (on : held c = some i)
    (alive : ((parkMe (remember s c) (held c) parkAs).tasks i).state.alive) (unasked : asked i = false) :
    Parked (parkMe (remember s c) (held c) parkAs) clock (deadline i) i ∧
      ((parkMe (remember s c) (held c) parkAs).tasks i).state ≠ .running := by
  have task : (parkMe (remember s c) (held c) parkAs).tasks i =
      if (s.tasks i).state = .running then { s.tasks i with state := parkAs } else s.tasks i := by
    rw [on, parkMe, Sys.setTask_tasks, if_pos rfl, remember_tasks]
  have ok := inv.pc c
  rw [hpc] at ok
  by_cases finished : parkAs = .done
  · have over_ := inv.held_done c i on (by rw [hpc, finished]; rfl)
    rw [task, over_, if_neg (by decide), over_] at alive
    cases alive
  have was : (s.tasks i).state.alive := by
    refine inv.held_alive c i on ?_
    rw [hpc]
    cases parkAs <;> first | rfl | exact absurd rfl finished
  have rest := rests i was unasked
  have here := (inv.at_iff (TaskState.owned_of_alive was)).mpr on
  have running := rest.running c here (by rw [hpc]; rfl)
  rw [running, if_pos rfl] at task
  obtain rfl | rfl | ⟨done, -⟩ := ok
  · refine ⟨⟨rest.near, ?_, ?_⟩, ?_⟩
    · rw [task]
      exact fun sleeping => by cases sleeping
    · rcases rest.asleep with reached | sleeping | ⟨d, at_, dozes⟩
      · exact .inl reached
      · rw [running] at sleeping
        cases sleeping
      · rw [inv.at_excl (TaskState.owned_of_alive was) at_ here, hpc] at dozes
        cases dozes
    · rw [task]
      exact fun no => by cases no
  · refine ⟨⟨rest.near, fun _ => ?_, ?_⟩, ?_⟩
    · rw [task]
      exact rest.parking c here hpc
    · rw [task]
      exact .inr rfl
    · rw [task]
      exact fun no => by cases no
  · exact absurd done finished

theorem nothingElse_tasks (ne : me ≠ some i) : (nothingElse s c me).tasks i = s.tasks i := by
  cases me with
  | none => rfl
  | some m =>
    have other : i ≠ m := fun eq => ne (by rw [eq])
    unfold nothingElse
    dsimp only
    split
    · rw [Sys.goto_tasks, Sys.setTask_tasks, if_neg other]
    · rfl
    · split <;> rfl
    · rfl

theorem nothingElse_cores {d : Core} (ne : d ≠ c) : (nothingElse s c me).cores d = s.cores d := by
  have moved (u : Sys) (pc' : Pc) : (u.goto c pc').cores d = u.cores d := by
    rw [Sys.goto_cores, if_neg ne]
  unfold nothingElse
  split
  · exact moved _ _
  · split
    · exact moved _ _
    · exact moved _ _
    · split
      · rw [backToSched]
        exact if_neg ne
      · exact moved _ _
    · exact moved _ _

theorem nothingElse_current : ((nothingElse s c me).cores c).current = (s.cores c).current ∨
    ((nothingElse s c me).cores c).current = -1 := by
  have moved (u : Sys) (pc' : Pc) : ((u.goto c pc').cores c).current = (u.cores c).current := by
    rw [Sys.goto_cores, if_pos rfl]
  unfold nothingElse
  split
  · exact .inl (moved _ _)
  · split
    · exact .inl (moved _ _)
    · exact .inl (moved _ _)
    · split
      · rw [backToSched]
        exact .inr (congrArg CoreState.current (if_pos rfl))
      · exact .inl (moved _ _)
    · exact .inl (moved _ _)

/-- Nothing else can run, and the parked task goes on or waits. -/
theorem rests_nothingElse (inv : Inv s held)
    (rests : ∀ i, held c ≠ some i → (s.tasks i).state.alive → asked i = false → Rest s clock (deadline i) i)
    (mine : ∀ i, held c = some i → (s.tasks i).state.alive → asked i = false →
      Parked s clock (deadline i) i ∧ (s.tasks i).state ≠ .running) :
    Rests (nothingElse s c (held c)) clock deadline asked := by
  intro i alive unasked
  by_cases on : held c = some i
  · rw [on] at alive ⊢
    -- the task goes on at once, or waits its deadline out
    have only {d : Core} (was : (s.tasks i).state.alive) (here : At s d i) : d = c :=
      inv.at_excl (TaskState.owned_of_alive was) here ((inv.at_iff (TaskState.owned_of_alive was)).mpr on)
    cases state : (s.tasks i).state with
    | ready =>
      obtain ⟨parked, -⟩ := mine i on (by rw [state]; rfl) unasked
      have next_eq : nothingElse s c (some i) = (s.setTask i fun t => { t with state := .running }).goto c .user := by
        simp only [nothingElse, state]
      have task : (nothingElse s c (some i)).tasks i = { s.tasks i with state := .running } := by
        rw [next_eq, Sys.goto_tasks, Sys.setTask_tasks, if_pos rfl]
      have user {d : Core} (here : At (nothingElse s c (some i)) d i) :
          ((nothingElse s c (some i)).cores d).pc = .user := by
        have eq : d = c := by
          by_contra ne
          rw [At, nothingElse_cores ne, task] at here
          exact ne (only (by rw [state]; rfl) here)
        rw [eq, next_eq, Sys.goto_cores, if_pos rfl]
      constructor
      case near => exact parked.near
      case running => exact fun _ _ _ => by rw [task]
      case wakes => exact fun sleeping => by rw [task] at sleeping; cases sleeping
      case written => exact fun d _ here carried => by rw [user here] at carried; cases carried
      case parking => exact fun d here parks => by rw [user here] at parks; cases parks
      case asleep =>
        refine .inl (parked.asleep.resolve_right fun sleeping => ?_)
        rw [state] at sleeping
        cases sleeping
    | sleeping =>
      obtain ⟨parked, -⟩ := mine i on (by rw [state]; rfl) unasked
      have next_eq : nothingElse s c (some i) = s.goto c (.sleepWait i (s.tasks i).wakeAt) := by
        simp only [nothingElse, state]
      have task : (nothingElse s c (some i)).tasks i = s.tasks i := by
        rw [next_eq, Sys.goto_tasks]
      have waits {d : Core} (here : At (nothingElse s c (some i)) d i) :
          ((nothingElse s c (some i)).cores d).pc = .sleepWait i (s.tasks i).wakeAt := by
        have eq : d = c := by
          by_contra ne
          rw [At, nothingElse_cores ne, task] at here
          exact ne (only (by rw [state]; rfl) here)
        rw [eq, next_eq, Sys.goto_cores, if_pos rfl]
      constructor
      case near => exact parked.near
      case running => exact fun d here waiting => by rw [waits here] at waiting; cases waiting
      case wakes =>
        rw [task]
        exact parked.wakes
      case written =>
        intro d wake here carried
        rw [waits here] at carried
        rw [← Option.some.inj carried]
        exact parked.wakes state
      case parking => exact fun d here parks => by rw [waits here] at parks; cases parks
      case asleep =>
        rw [task]
        exact .inr (.inl state)
    | running => exact absurd state (mine i on (by rw [state]; rfl) unasked).2
    | free | blocked =>
      have next_eq : nothingElse s c (some i) = s.goto c .user := by
        simp only [nothingElse, state]
      rw [next_eq, Sys.goto_tasks, state] at alive
      cases alive
    | done =>
      have same : (nothingElse s c (some i)).tasks = s.tasks := by
        simp only [nothingElse, state]
        split <;> rfl
      rw [same, state] at alive
      cases alive
  · have task := nothingElse_tasks (s := s) (c := c) on
    rw [task] at alive
    have owned := TaskState.owned_of_alive alive
    have before : ¬At s c i := fun here => on ((inv.at_iff owned).mp here)
    refine (rests i on alive unasked).elsewhere (c := c) (by rw [task]) (by rw [task]) (by rw [task])
      (fun d ne => by rw [nothingElse_cores ne]; exact ⟨rfl, rfl⟩) before ?_
    rw [At, task]
    rcases @nothingElse_current s c (held c) with same | gone
    · rw [same]
      exact before
    · rw [gone]
      have pos := inv.pid_pos i owned
      omega

theorem remember_current (d : Core) : ((remember s c).cores d).current = (s.cores d).current := by
  unfold remember
  split
  · rfl
  · rw [Sys.setCore_cores]
    split
    · subst d
      rfl
    · rfl

theorem rests_reschedule (inv : Inv s held) (rests : Rests s clock deadline asked) {parkAs : TaskState}
    (hpc : (s.cores c).pc = .sched parkAs) : Rests (reschedule s c parkAs (millis clock)) clock deadline asked := by
  unfold reschedule
  simp only [inv.cur_eq c]
  have parked := (inv.remember c).parkMe ((remember_pc c).trans hpc)
  have others (i : Slot) (off : held c ≠ some i)
      (alive : ((parkMe (remember s c) (held c) parkAs).tasks i).state.alive) (unasked : asked i = false) :
      Rest (parkMe (remember s c) (held c) parkAs) clock (deadline i) i := by
    have task : (parkMe (remember s c) (held c) parkAs).tasks i = s.tasks i := by
      cases on : held c with
      | none => rw [parkMe, remember_tasks]
      | some m => rw [parkMe, Sys.setTask_tasks, if_neg fun eq => off (by rw [on, eq]), remember_tasks]
    rw [task] at alive
    refine (rests i alive unasked).of_eq (by rw [task]) (by rw [task]) (by rw [task]) fun d => ?_
    rw [parkMe_cores, remember_pc, remember_current]
    exact ⟨rfl, rfl⟩
  split
  · rename_i next picked
    exact rests_claim parked picked others fun i on alive unasked => (parked_me inv rests hpc on alive unasked).1
  · exact rests_nothingElse parked others fun i on alive unasked => parked_me inv rests hpc on alive unasked

theorem rests_sleepTurn (inv : Inv s held) (rests : Rests s clock deadline asked) {m : Slot} {wake : BitVec 32}
    (hpc : (s.cores c).pc = .sleepWait m wake) : Rests (sleepTurn s c m wake (millis clock)) clock deadline asked := by
  have on : held c = some m := by
    have ok := inv.pc c
    rwa [hpc] at ok
  have was := inv.held_alive c m on (by rw [hpc]; rfl)
  have owned := TaskState.owned_of_alive was
  have here := (inv.at_iff owned).mpr on
  unfold sleepTurn
  split
  · rename_i reached
    intro i alive unasked
    by_cases eq : i = m
    · subst eq
      have rest := rests i was unasked
      rw [rest.written c wake here (by rw [hpc]; rfl)] at reached
      have over_ := due_deadline rest.near reached
      have task : ((s.setTask i fun t => { t with state := .running }).goto c .user).tasks i =
          { s.tasks i with state := .running } := by
        rw [Sys.goto_tasks, Sys.setTask_tasks, if_pos rfl]
      have user {d : Core} (at_ : At ((s.setTask i fun t => { t with state := .running }).goto c .user) d i) :
          (((s.setTask i fun t => { t with state := .running }).goto c .user).cores d).pc = .user := by
        by_cases eq : d = c
        · rw [eq, Sys.goto_cores, if_pos rfl]
        · rw [At, task, Sys.goto_cores, if_neg eq] at at_
          exact absurd (inv.at_excl owned at_ here) eq
      constructor
      case near => exact rest.near
      case running => exact fun _ _ _ => by rw [task]
      case wakes => exact fun sleeping => by rw [task] at sleeping; cases sleeping
      case written => exact fun d _ at_ carried => by rw [user at_] at carried; cases carried
      case parking => exact fun d at_ parks => by rw [user at_] at parks; cases parks
      case asleep => exact .inl over_
    · have task : ((s.setTask m fun t => { t with state := .running }).goto c .user).tasks i = s.tasks i := by
        rw [Sys.goto_tasks, Sys.setTask_tasks, if_neg eq]
      rw [task] at alive
      have off := inv.not_at on eq (TaskState.owned_of_alive alive)
      refine (rests i alive unasked).elsewhere (c := c) (by rw [task]) (by rw [task]) (by rw [task])
        (fun d ne => ?_) off ?_
      · rw [Sys.goto_cores, if_neg ne]
        exact ⟨rfl, rfl⟩
      · rw [At, task, Sys.goto_cores, if_pos rfl]
        exact off
  · split
    · rename_i next picked
      rw [← on]
      refine rests_claim inv picked (fun i _ alive unasked => rests i alive unasked) fun i on' alive unasked => ?_
      obtain rfl : m = i := Option.some.inj (on.symm.trans on')
      have rest := rests m was unasked
      refine ⟨rest.near, rest.wakes, rest.asleep.imp_right fun more => more.resolve_right ?_⟩
      rintro ⟨d, at_, dozes⟩
      rw [inv.at_excl owned at_ here, hpc] at dozes
      cases dozes
    · exact rests

theorem rests_doneTurn (inv : Inv s held) (rests : Rests s clock deadline asked) {m : Slot}
    (hpc : (s.cores c).pc = .doneWait m) : Rests (doneTurn s c m (millis clock)) clock deadline asked := by
  have on : held c = some m := by
    have ok := inv.pc c
    rwa [hpc] at ok
  have done := inv.held_done c m on (by rw [hpc]; rfl)
  unfold doneTurn
  split
  · rename_i next picked
    rw [← on]
    refine rests_claim inv picked (fun i _ alive unasked => rests i alive unasked) fun i on' alive _ => ?_
    rw [← Option.some.inj (on.symm.trans on'), done] at alive
    cases alive
  · exact rests

/-! ### Going to sleep -/

/-- `task_sleep_ms` is called, and its deadline computed. -/
theorem rests_sleep (inv : Inv s held) (rests : Rests s clock deadline asked) (hpc : (s.cores c).pc = .user)
    {ms : BitVec 32} (short : ms.toNat ≤ 2 ^ 31) {m : Slot} (on : held c = some m) :
    Rests ((remember s c).goto c (.sleepWrite m (millis clock + ms))) clock (upd deadline m (clock + ms.toNat))
      asked := by
  intro i alive unasked
  rw [Sys.goto_tasks, remember_tasks] at alive
  have owned := TaskState.owned_of_alive alive
  have task : ((remember s c).goto c (.sleepWrite m (millis clock + ms))).tasks i = s.tasks i := by
    rw [Sys.goto_tasks, remember_tasks]
  have other {d : Core} (ne : d ≠ c) :
      (((remember s c).goto c (.sleepWrite m (millis clock + ms))).cores d).current = (s.cores d).current ∧
        (((remember s c).goto c (.sleepWrite m (millis clock + ms))).cores d).pc = (s.cores d).pc := by
    rw [Sys.goto_cores, if_neg ne, remember_current, remember_pc]
    exact ⟨rfl, rfl⟩
  have own : ((remember s c).goto c (.sleepWrite m (millis clock + ms))).cores c =
      { (remember s c).cores c with pc := .sleepWrite m (millis clock + ms) } := by
    rw [Sys.goto_cores, if_pos rfl]
  have here_iff (d : Core) : At ((remember s c).goto c (.sleepWrite m (millis clock + ms))) d i ↔ At s d i := by
    refine at_congr ?_ (by rw [task])
    by_cases eq : d = c
    · rw [eq, own, remember_current]
    · exact (other eq).1
  by_cases eq : i = m
  · subst eq
    have rest := rests i alive unasked
    have here := (inv.at_iff owned).mpr on
    have only {d : Core} (at_ : At ((remember s c).goto c (.sleepWrite i (millis clock + ms))) d i) : d = c :=
      inv.at_excl owned ((here_iff d).mp at_) here
    have running := rest.running c here (by rw [hpc]; rfl)
    rw [upd_same]
    constructor
    case near => exact Nat.add_le_add_left short _
    case running => exact fun _ _ _ => by rw [task, running]
    case wakes => exact fun sleeping => by rw [task, running] at sleeping; cases sleeping
    case written =>
      intro d wake at_ carried
      rw [only at_, own] at carried
      rw [← Option.some.inj carried, millis_add]
    case parking => exact fun d at_ parks => by rw [only at_, own] at parks; cases parks
    case asleep => exact .inr (.inr ⟨c, (here_iff c).mpr here, by rw [own]; rfl⟩)
  · rw [upd_ne eq]
    have off := inv.not_at on eq owned
    exact (rests i alive unasked).elsewhere (c := c) (by rw [task]) (by rw [task]) (by rw [task])
      (fun d ne => other ne) off fun at_ => off ((here_iff c).mp at_)

/-- The deadline is written to the table. -/
theorem rests_sleepWrite (inv : Inv s held) (rests : Rests s clock deadline asked) {m : Slot} {wake : BitVec 32}
    (hpc : (s.cores c).pc = .sleepWrite m wake) :
    Rests ((s.setTask m fun t => { t with wakeAt := wake }).goto c (.sched .sleeping)) clock deadline asked := by
  have on : held c = some m := by
    have ok := inv.pc c
    rwa [hpc] at ok
  intro i alive unasked
  have own : ((s.setTask m fun t => { t with wakeAt := wake }).goto c (.sched .sleeping)).cores c =
      { s.cores c with pc := .sched .sleeping } := by
    rw [Sys.goto_cores, if_pos rfl]
    rfl
  have other {d : Core} (ne : d ≠ c) :
      ((s.setTask m fun t => { t with wakeAt := wake }).goto c (.sched .sleeping)).cores d = s.cores d := by
    rw [Sys.goto_cores, if_neg ne]
    rfl
  have pid : (((s.setTask m fun t => { t with wakeAt := wake }).goto c (.sched .sleeping)).tasks i).pid =
      (s.tasks i).pid := by
    rw [Sys.goto_tasks, Sys.setTask_tasks]
    split
    · subst i
      rfl
    · rfl
  have state : (((s.setTask m fun t => { t with wakeAt := wake }).goto c (.sched .sleeping)).tasks i).state =
      (s.tasks i).state := by
    rw [Sys.goto_tasks, Sys.setTask_tasks]
    split
    · subst i
      rfl
    · rfl
  rw [state] at alive
  have owned := TaskState.owned_of_alive alive
  have here_iff (d : Core) :
      At ((s.setTask m fun t => { t with wakeAt := wake }).goto c (.sched .sleeping)) d i ↔ At s d i := by
    refine at_congr ?_ pid
    by_cases eq : d = c
    · rw [eq, own]
    · rw [other eq]
  have rest := rests i alive unasked
  by_cases eq : i = m
  · subst eq
    have here := (inv.at_iff owned).mpr on
    have only {d : Core}
        (at_ : At ((s.setTask i fun t => { t with wakeAt := wake }).goto c (.sched .sleeping)) d i) : d = c :=
      inv.at_excl owned ((here_iff d).mp at_) here
    have running := rest.running c here (by rw [hpc]; rfl)
    have woken : (((s.setTask i fun t => { t with wakeAt := wake }).goto c (.sched .sleeping)).tasks i).wakeAt =
        millis (deadline i) := by
      rw [Sys.goto_tasks, Sys.setTask_tasks, if_pos rfl]
      exact rest.written c wake here (by rw [hpc]; rfl)
    constructor
    case near => exact rest.near
    case running => exact fun _ _ _ => by rw [state, running]
    case wakes => exact fun _ => woken
    case written => exact fun d _ at_ carried => by rw [only at_, own] at carried; cases carried
    case parking => exact fun _ _ _ => woken
    case asleep => exact .inr (.inr ⟨c, (here_iff c).mpr here, by rw [own]; rfl⟩)
  · have off := inv.not_at on eq owned
    refine rest.elsewhere (c := c) pid state ?_ (fun d ne => by rw [other ne]; exact ⟨rfl, rfl⟩) off
      fun at_ => off ((here_iff c).mp at_)
    rw [Sys.goto_tasks, Sys.setTask_tasks, if_neg eq]

/-! ### The other steps -/

/-- A change that leaves the fields of every task that may still run alone, and moves cores outside of sleeps only. -/
theorem Rests.quiet (rests : Rests s clock deadline asked) {asked' : Slot → Bool}
    (tasks : ∀ i, (s'.tasks i).state.alive → asked' i = false → asked i = false ∧
      (s'.tasks i).pid = (s.tasks i).pid ∧ (s'.tasks i).state = (s.tasks i).state ∧
      (s'.tasks i).wakeAt = (s.tasks i).wakeAt)
    (cores : ∀ d, (s'.cores d).current = (s.cores d).current ∧
      ((s'.cores d).pc = (s.cores d).pc ∨ (s.cores d).pc.awake = true ∧ (s'.cores d).pc.awake = true)) :
    Rests s' clock deadline asked' := by
  intro i alive unasked'
  obtain ⟨unasked, pid, state, wakeAt⟩ := tasks i alive unasked'
  rw [state] at alive
  have here (d : Core) : At s' d i ↔ At s d i := at_congr (cores d).1 pid
  refine (rests i alive unasked).frame state wakeAt fun d at_ => ?_
  rw [here d, or_self] at at_
  exact ⟨at_, (here d).mpr at_, (cores d).2⟩

theorem goto_quiet {u : Sys} {pc' : Pc} (cores : u.cores = s.cores) (awake : (s.cores c).pc.awake = true)
    (awake' : pc'.awake = true) (d : Core) :
    ((u.goto c pc').cores d).current = (s.cores d).current ∧
      (((u.goto c pc').cores d).pc = (s.cores d).pc ∨
        (s.cores d).pc.awake = true ∧ ((u.goto c pc').cores d).pc.awake = true) := by
  rw [Sys.goto_cores, cores]
  split
  · subst d
    exact ⟨rfl, .inr ⟨awake, awake'⟩⟩
  · exact ⟨rfl, .inl rfl⟩

theorem Rests.goto (rests : Rests s clock deadline asked) {pc' : Pc} (awake : (s.cores c).pc.awake = true)
    (awake' : pc'.awake = true) : Rests (s.goto c pc') clock deadline asked :=
  rests.quiet (fun _ _ unasked => ⟨unasked, rfl, rfl, rfl⟩) (goto_quiet rfl awake awake')

/-- A core writes to a task, which may not run afterwards, or was asked to stop, or keeps the fields that matter. -/
theorem Rests.put (rests : Rests s clock deadline asked) {asked' : Slot → Bool} {t : Slot} {x : Task}
    (tasks : s'.tasks = upd s.tasks t x)
    (cores : ∀ d, (s'.cores d).current = (s.cores d).current ∧
      ((s'.cores d).pc = (s.cores d).pc ∨ (s.cores d).pc.awake = true ∧ (s'.cores d).pc.awake = true))
    (others : ∀ i, i ≠ t → asked' i = asked i)
    (mine : x.state.alive → asked' t = false → asked t = false ∧ x.pid = (s.tasks t).pid ∧
      x.state = (s.tasks t).state ∧ x.wakeAt = (s.tasks t).wakeAt) : Rests s' clock deadline asked' := by
  refine rests.quiet (fun i alive unasked => ?_) cores
  rw [tasks] at alive ⊢
  by_cases eq : i = t
  · subst eq
    rw [upd_same] at alive ⊢
    exact mine alive unasked
  · rw [upd_ne eq]
    exact ⟨others i eq ▸ unasked, rfl, rfl, rfl⟩

theorem Rests.remember (rests : Rests s clock deadline asked) : Rests (remember s c) clock deadline asked := by
  refine rests.quiet (fun i _ unasked => ?_) fun d => ?_
  · rw [remember_tasks]
    exact ⟨unasked, rfl, rfl, rfl⟩
  · rw [remember_pc, remember_current]
    exact ⟨rfl, .inl rfl⟩

/-- A context calls an operation. -/
theorem rests_callOp (inv : Inv s held) (rests : Rests s clock deadline asked) (hpc : (s.cores c).pc = .user) {op : Op}
    {now : BitVec 32} (short : (Move.call op now).short) :
    Rests (callOp s c (millis clock) op) clock (deadlineAfter s clock deadline c (.call op now)) asked := by
  have user : (s.cores c).pc.awake = true := by rw [hpc]; rfl
  have user' : ((remember s c).cores c).pc.awake = true := by rw [remember_pc]; exact user
  cases op with
  | yield => exact rests.goto user rfl
  | sleep ms =>
    simp only [callOp, deadlineAfter, inv.cur_eq]
    cases on : held c with
    | none => exact rests.remember
    | some m => exact rests_sleep inv rests hpc short on
  | exit =>
    simp only [callOp]
    split
    · exact rests.remember.goto user' rfl
    · exact rests.remember
  | kill pid => exact rests.goto user rfl
  | spawn affinity => exact rests.goto user rfl
  | reap pid => exact rests.goto user rfl
  | setAffinity pid affinity =>
    simp only [callOp]
    split
    · exact rests.put rfl (fun _ => ⟨rfl, .inl rfl⟩) (fun _ _ => rfl) fun _ unasked => ⟨unasked, rfl, rfl, rfl⟩
    · exact rests
  | clearStop =>
    simp only [callOp]
    split
    · exact rests.remember.put rfl (fun _ => ⟨rfl, .inl rfl⟩) (fun _ _ => rfl)
        fun _ unasked => ⟨unasked, rfl, rfl, rfl⟩
    · exact rests.remember
  | markShell =>
    simp only [callOp]
    split
    · exact rests.remember.quiet (fun _ _ unasked => ⟨unasked, rfl, rfl, rfl⟩) fun _ => ⟨rfl, .inl rfl⟩
    · exact rests.remember

/-- A new task is published: no core is at it yet, and it has not slept. -/
theorem rests_publish (inv : Inv s held) (rests : Rests s clock deadline asked) {l : Spawning}
    (hpc : (s.cores c).pc = .spawn .publish l) (h : spawnStep s c l .publish = some s') :
    Rests s' clock (upd deadline l.slot 0) (upd asked l.slot false) := by
  have result := (Option.some.inj h).symm
  have awake : (s.cores c).pc.awake = true := by rw [hpc]; rfl
  have filling : Filling s .publish l := by
    have ok := inv.pc c
    rwa [hpc] at ok
  have tasks : s'.tasks = upd s.tasks l.slot { s.tasks l.slot with state := .ready } := by
    rw [result]
    rfl
  have cores (d : Core) : (s'.cores d).current = (s.cores d).current ∧
      ((s'.cores d).pc = (s.cores d).pc ∨ (s.cores d).pc.awake = true ∧ (s'.cores d).pc.awake = true) := by
    rw [result]
    exact goto_quiet rfl awake rfl d
  have kept : Rests s' clock deadline (upd asked l.slot true) :=
    rests.put tasks cores (fun i ne => upd_ne ne) fun _ unasked => by
      rw [upd_same] at unasked
      cases unasked
  intro i alive unasked
  by_cases eq : i = l.slot
  · subst eq
    rw [upd_same]
    have task : s'.tasks l.slot = { s.tasks l.slot with state := .ready } := by
      rw [tasks, upd_same]
    have nobody (d : Core) : ¬At s' d l.slot := by
      intro here
      have pos := (filling.pid rfl).2
      have current := inv.current d
      rw [At, (cores d).1, task] at here
      rw [here, (filling.pid rfl).1] at current
      cases on : held d with
      | none =>
        rw [on, Option.elim_none] at current
        omega
      | some j =>
        rw [on, Option.elim_some, ← (filling.pid rfl).1] at current
        have same := inv.pid_inj l.slot j current (by rw [(filling.pid rfl).1]; exact pos)
        exact inv.idle_of_not_owned filling.not_owned d (.inl (by rw [on, same]))
    constructor
    case near => exact Nat.zero_le _
    case running => exact fun d here => absurd here (nobody d)
    case wakes => exact fun sleeping => by rw [task] at sleeping; cases sleeping
    case written => exact fun d _ here => absurd here (nobody d)
    case parking => exact fun d here => absurd here (nobody d)
    case asleep => exact .inl (Nat.zero_le _)
  · rw [upd_ne eq] at unasked ⊢
    exact kept i alive (by rw [upd_ne eq]; exact unasked)

/-- `task_spawn` fills a slot that no task owns. -/
theorem rests_spawnStep (inv : Inv s held) (rests : Rests s clock deadline asked) {pc : SpawnPc} {l : Spawning}
    (hpc : (s.cores c).pc = .spawn pc l) (h : spawnStep s c l pc = some s') (silent : pc ≠ .publish) :
    Rests s' clock deadline asked := by
  have awake : (s.cores c).pc.awake = true := by rw [hpc]; rfl
  have fill {u : Sys} {f : Task → Task} {pc' : Pc} (notReport : pc ≠ .report)
      (result : u = (s.setTask l.slot f).goto c pc')
      (dead : (s.tasks l.slot).state.alive = false → (f (s.tasks l.slot)).state.alive = false)
      (awake' : pc'.awake = true) : Rests u clock deadline asked := by
    have filling := inv.filling hpc notReport
    have dead' := dead (by
      by_contra alive
      have owned := TaskState.owned_of_alive (Bool.not_eq_false _ ▸ alive)
      rw [filling.not_owned] at owned
      cases owned)
    rw [result]
    refine rests.put rfl (goto_quiet rfl awake awake') (fun _ _ => rfl) fun alive => ?_
    rw [dead'] at alive
    cases alive
  cases pc with
  | release stack => exact Option.some.inj h ▸ rests.goto awake rfl
  | alloc => cases h
  | fetchPid => exact Option.some.inj h ▸ rests.goto awake rfl
  | storePid =>
    rw [← Option.some.inj h]
    exact rests.quiet (fun _ _ unasked => ⟨unasked, rfl, rfl, rfl⟩) (goto_quiet rfl awake rfl)
  | publish => exact absurd rfl silent
  | report => exact Option.some.inj h ▸ rests.goto awake rfl
  | abandon | zeroState => exact fill (by simp) (Option.some.inj h).symm (fun _ => rfl) rfl
  | _ => exact fill (by simp) (Option.some.inj h).symm id rfl

/-- `task_kill` after its lookup. -/
theorem rests_killStep (rests : Rests s clock deadline asked) {pc : KillPc} {t : Slot} {now : BitVec 32}
    (hpc : (s.cores c).pc = .kill pc t) :
    Rests (killStep s c t now pc) clock deadline (askedAfter s asked c (.go now)) := by
  have awake : (s.cores c).pc.awake = true := by rw [hpc]; rfl
  have written {u : Sys} {x : Task} {pc' : Pc} (tasks : u.tasks = upd s.tasks t x) (cores : u.cores = s.cores)
      (awake' : pc'.awake = true) : Rests (u.goto c pc') clock deadline (upd asked t true) := by
    refine rests.put tasks (goto_quiet cores awake awake') (fun _ ne => upd_ne ne) fun _ unasked => ?_
    rw [upd_same] at unasked
    cases unasked
  simp only [askedAfter, hpc]
  cases pc with
  | idle | shell | finished | asleep => exact rests.goto awake (by split <;> rfl)
  | request | wake | ready => exact written rfl rfl rfl

/-- `task_reap` after its lookup. -/
theorem rests_reapStep (rests : Rests s clock deadline asked) {pc : ReapPc} {t : Slot}
    (hpc : (s.cores c).pc = .reap pc t) : Rests (reapStep s c t pc) clock deadline asked := by
  have awake : (s.cores c).pc.awake = true := by rw [hpc]; rfl
  cases pc with
  | finished => exact rests.goto awake (by split <;> rfl)
  | takeStack => exact rests.goto awake (by split <;> rfl)
  | release stack => exact rests.goto awake rfl
  | dropStack =>
    exact rests.put rfl (goto_quiet rfl awake rfl) (fun _ _ => rfl) fun _ unasked => ⟨unasked, rfl, rfl, rfl⟩
  | free =>
    exact rests.put rfl (goto_quiet rfl awake rfl) (fun _ _ => rfl) fun alive => by cases alive

theorem rests_reserve (rests : Rests s clock deadline asked) {affinity : TaskAffinity}
    (hpc : (s.cores c).pc = .reserve affinity) : Rests (reserve s c affinity) clock deadline asked := by
  have awake : (s.cores c).pc.awake = true := by rw [hpc]; rfl
  unfold reserve
  split
  · exact rests.put rfl (goto_quiet rfl awake rfl) (fun _ _ => rfl) fun alive => by cases alive
  · split
    · rename_i t _
      refine rests.put rfl (goto_quiet rfl awake ?_) (fun _ _ => rfl) fun alive => by cases alive
      cases (s.tasks t).stackRaw <;> rfl
    · exact rests.goto awake rfl

theorem rests_go (inv : Inv s held) (rests : Rests s clock deadline asked) (h : go s c (millis clock) = some s') :
    Rests s' clock (deadlineAfter s clock deadline c (.go (millis clock)))
      (askedAfter s asked c (.go (millis clock))) := by
  have ok := inv.pc c
  simp only [go] at h
  simp only [deadlineAfter, askedAfter]
  cases hpc : (s.cores c).pc with
  | user => rw [hpc] at h; cases h
  | sched parkAs =>
    rw [hpc] at h
    exact Option.some.inj h ▸ rests_reschedule inv rests hpc
  | sleepWait m wake =>
    rw [hpc] at h
    exact Option.some.inj h ▸ rests_sleepTurn inv rests hpc
  | doneWait m =>
    rw [hpc] at h
    exact Option.some.inj h ▸ rests_doneTurn inv rests hpc
  | load m next =>
    rw [hpc] at h
    exact Option.some.inj h ▸ rests.goto (by rw [hpc]; rfl) rfl
  | store m dst =>
    rw [hpc] at h
    obtain rfl := Option.some.inj h
    have awake : (s.cores c).pc.awake = true := by rw [hpc]; rfl
    cases m with
    | none =>
      refine rests.quiet (fun _ _ unasked => ⟨unasked, rfl, rfl, rfl⟩) fun d => ?_
      rw [storeSp, Sys.setCore_cores]
      split
      · subst d
        exact ⟨rfl, .inr ⟨awake, rfl⟩⟩
      · exact ⟨rfl, .inl rfl⟩
    | some m =>
      exact rests.put rfl (goto_quiet rfl awake rfl) (fun _ _ => rfl) fun _ unasked => ⟨unasked, rfl, rfl, rfl⟩
  | clear m dst =>
    rw [hpc] at h
    obtain rfl := Option.some.inj h
    have awake : (s.cores c).pc.awake = true := by rw [hpc]; rfl
    refine rests.put rfl (fun d => ?_) (fun _ _ => rfl) fun _ unasked => ⟨unasked, rfl, rfl, rfl⟩
    rw [clearLive, Sys.setCore_cores]
    split
    · subst d
      exact ⟨rfl, .inr ⟨awake, rfl⟩⟩
    · exact ⟨rfl, .inl rfl⟩
  | resume dst =>
    rw [hpc] at h
    exact Option.some.inj h ▸ rests.goto (by rw [hpc]; rfl) rfl
  | sleepWrite m wake =>
    rw [hpc] at h
    exact Option.some.inj h ▸ rests_sleepWrite inv rests hpc
  | exitWrite m =>
    rw [hpc] at h
    obtain rfl := Option.some.inj h
    exact rests.put rfl (goto_quiet rfl (by rw [hpc]; rfl) rfl) (fun _ _ => rfl) fun alive => by cases alive
  | lookup job pid n =>
    rw [hpc] at h
    obtain rfl := Option.some.inj h
    have awake : (s.cores c).pc.awake = true := by rw [hpc]; rfl
    unfold lookupStep
    split
    · exact rests.goto awake (by split <;> rfl)
    · exact rests.goto awake rfl
  | lookupPid job pid n =>
    rw [hpc] at h
    obtain rfl := Option.some.inj h
    refine rests.goto (by rw [hpc]; rfl) ?_
    cases job <;> (split <;> rfl)
  | kill pc t =>
    rw [hpc] at h
    have killed : Rests s' clock deadline (askedAfter s asked c (.go (millis clock))) :=
      Option.some.inj h ▸ rests_killStep rests hpc
    simpa only [askedAfter, hpc] using killed
  | reap pc t =>
    rw [hpc] at h
    exact Option.some.inj h ▸ rests_reapStep rests hpc
  | reserve affinity =>
    rw [hpc] at h
    exact Option.some.inj h ▸ rests_reserve rests hpc
  | spawn pc l =>
    rw [hpc] at h
    by_cases published : pc = .publish
    · subst published
      exact rests_publish inv rests hpc h
    · have filled := rests_spawnStep inv rests hpc h published
      cases pc <;> first | exact filled | exact absurd rfl published

/-! ### Whole runs -/

/-- The scheduler's invariant, with every deadline kept. -/
def Timed.Inv (t : Timed) : Prop := ∃ held, Sched.Inv t.sys held ∧ Rests t.sys t.clock t.deadline t.asked

theorem Orderly.at {m : Move} (orderly : Orderly s (c, m)) (now : BitVec 32) : Orderly s (c, m.at now) := by
  cases m <;> exact orderly

theorem Timed.Inv.step {t u : Timed} {a : Nat × Core × Move} (inv : t.Inv) (inTime : InTime t a)
    (taken : t.step a = some u) : u.Inv := by
  obtain ⟨passed, c, m⟩ := a
  obtain ⟨held, inv, rests⟩ := inv
  obtain ⟨orderly, short⟩ := inTime
  obtain ⟨sys, stepped, rfl⟩ := Option.map_eq_some_iff.mp taken
  obtain ⟨held', inv'⟩ := inv.step (orderly.at _) stepped
  have later : Rests t.sys (t.clock + passed) t.deadline t.asked :=
    fun i alive unasked => (rests i alive unasked).later (Nat.le_add_right _ _)
  refine ⟨held', inv', ?_⟩
  cases m with
  | call op now =>
    simp only [Move.at, Sched.step] at stepped
    split at stepped
    · rename_i hpc
      obtain rfl := Option.some.inj stepped
      exact rests_callOp inv later hpc short
    · cases stepped
  | go now => exact rests_go inv later stepped
  | malloc ok =>
    simp only [Move.at, Sched.step] at stepped
    split at stepped
    · rename_i l hpc
      obtain rfl := Option.some.inj stepped
      have awake : (t.sys.cores c).pc.awake = true := by rw [hpc]; rfl
      unfold mallocStep
      split
      · exact later.quiet (fun _ _ unasked => ⟨unasked, rfl, rfl, rfl⟩) (goto_quiet rfl awake rfl)
      · exact later.goto awake rfl
    · cases stepped

end

end RPCortex.Sched
