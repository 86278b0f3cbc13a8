import RPCortex.Sched.Sleep

/-! Turns on one core.  Where core 0 is the only one that moves, every access acts on what is still so, and every pick in
`reschedule` starts behind the task that gives the core up: it comes closer to a task that can run, or takes it.  The
scans that start at slot 0 follow only a scan that found nothing. -/

namespace RPCortex.Sched

open Lib

/-! ### One core -/

/-- `g_next_pid` is counted up. -/
def Pc.storesPid : Pc → Bool
  | .spawn .storePid _ => true
  | _ => false

/-- A move of the one core there is; the count of pids, which is signed, does not overflow. -/
def OneCore (s : Sys) : Core × Move → Prop
  | (c, .go _) => c = 0 ∧ ((s.cores c).pc.storesPid = true → s.nextPid < 0x7fffffff)
  | (c, _) => c = 0

instance (s : Sys) : (a : Core × Move) → Decidable (OneCore s a)
  | (_, .go _) => inferInstanceAs (Decidable (_ ∧ _))
  | (_, .call ..) | (_, .malloc _) => inferInstanceAs (Decidable (_ = _))

/-- What the core has read is still so. -/
def Pc.Fresh (s : Sys) : Pc → Prop
  | .kill .wake t | .kill .ready t => (s.tasks t).state = .sleeping
  | .reap .finished _ => True
  | .reap _ t => (s.tasks t).state = .done
  | .spawn .storePid l => s.nextPid = l.pid
  | _ => True

/-- In one of the loops that wait for something to run. -/
def Pc.waits : Pc → Bool
  | .sleepWait .. | .doneWait _ => true
  | _ => false

/-- Only core 0 has moved. -/
structure Single (s : Sys) : Prop where
  idle : (s.cores 1).pc = .user ∧ (s.cores 1).current = -1
  fresh : (s.cores 0).pc.Fresh s

/-- Core `c` has moved from `s` to `s'`. -/
structure Moved (s s' : Sys) (c : Core) : Prop where
  others : ∀ d, d ≠ c → s'.cores d = s.cores d
  fresh : (s'.cores c).pc.Fresh s'

section

variable {s s' : Sys} {held : Core → Option Slot} {c : Core}

theorem Moved.of_eq {k : CoreState} (cores : s'.cores = upd s.cores c k) (fresh : k.pc.Fresh s') : Moved s s' c where
  others d ne := by rw [cores, upd_ne ne]
  fresh := by
    rw [cores, upd_same]
    exact fresh

theorem remember_other {d : Core} (ne : d ≠ c) : (remember s c).cores d = s.cores d := by
  unfold remember
  split
  · rfl
  · rw [Sys.setCore_cores, if_neg ne]

theorem Moved.remember {k : CoreState} (cores : s'.cores = upd (remember s c).cores c k) (fresh : k.pc.Fresh s') :
    Moved s s' c where
  others d ne := by rw [cores, upd_ne ne, remember_other ne]
  fresh := by
    rw [cores, upd_same]
    exact fresh

theorem moved_callOp (hpc : (s.cores c).pc = .user) (now : BitVec 32) (op : Op) :
    Moved s (callOp s c now op) c ∧ ((callOp s c now op).cores c).pc.waits = false := by
  have remembered (u : Sys) (cores : u.cores = (remember s c).cores) :
      Moved s u c ∧ (u.cores c).pc.waits = false := by
    have pc : (u.cores c).pc = .user := by rw [cores, remember_pc, hpc]
    refine ⟨⟨fun d ne => by rw [cores, remember_other ne], ?_⟩, ?_⟩
    · rw [pc]
      trivial
    · rw [pc]
      rfl
  have moved (pc' : Pc) (fresh : pc'.Fresh (s.goto c pc')) (waits : pc'.waits = false) :
      Moved s (s.goto c pc') c ∧ ((s.goto c pc').cores c).pc.waits = false := by
    refine ⟨.of_eq rfl fresh, ?_⟩
    rw [Sys.goto_cores, if_pos rfl]
    exact waits
  have movedOn (pc' : Pc) (fresh : pc'.Fresh ((remember s c).goto c pc')) (waits : pc'.waits = false) :
      Moved s ((remember s c).goto c pc') c ∧ (((remember s c).goto c pc').cores c).pc.waits = false := by
    refine ⟨.remember rfl fresh, ?_⟩
    rw [Sys.goto_cores, if_pos rfl]
    exact waits
  cases op with
  | yield => exact moved _ trivial rfl
  | sleep ms =>
    simp only [callOp]
    split
    · exact movedOn _ trivial rfl
    · exact remembered _ rfl
  | exit =>
    simp only [callOp]
    split
    · exact movedOn _ trivial rfl
    · exact remembered _ rfl
  | kill pid => exact moved _ trivial rfl
  | spawn affinity => exact moved _ trivial rfl
  | reap pid => exact moved _ trivial rfl
  | setAffinity pid affinity =>
    have user {u : Sys} (cores : u.cores = s.cores) : Moved s u c ∧ (u.cores c).pc.waits = false := by
      refine ⟨⟨fun d _ => by rw [cores], ?_⟩, ?_⟩
      · rw [cores, hpc]
        trivial
      · rw [cores, hpc]
        rfl
    simp only [callOp]
    split
    · exact user rfl
    · exact user rfl
  | clearStop =>
    simp only [callOp]
    split
    · exact remembered _ rfl
    · exact remembered _ rfl
  | markShell =>
    simp only [callOp]
    split
    · exact remembered _ rfl
    · exact remembered _ rfl

/-- A move other than a decision. -/
theorem moved_step {m : Move} (h : Sched.step s (c, m) = some s') (stays : (s.cores c).pc.decides = false)
    (fresh : (s.cores c).pc.Fresh s) : Moved s s' c ∧ (s'.cores c).pc.waits = false := by
  have put {u : Sys} {k : CoreState} (cores : u.cores = upd s.cores c k) (fresh : k.pc.Fresh u)
      (waits : k.pc.waits = false) : Moved s u c ∧ (u.cores c).pc.waits = false := by
    refine ⟨.of_eq cores fresh, ?_⟩
    rw [cores, upd_same]
    exact waits
  cases m with
  | call op now =>
    simp only [Sched.step] at h
    split at h
    · rename_i hpc
      obtain rfl := Option.some.inj h
      exact moved_callOp hpc now op
    · cases h
  | malloc ok =>
    simp only [Sched.step] at h
    split at h
    · obtain rfl := Option.some.inj h
      unfold mallocStep
      split
      · exact put rfl trivial rfl
      · exact put rfl trivial rfl
    · cases h
  | go now =>
    simp only [Sched.step, go] at h
    cases hpc : (s.cores c).pc with
    | user => rw [hpc] at h; cases h
    | sched parkAs => rw [hpc] at stays; cases stays
    | sleepWait me wake => rw [hpc] at stays; cases stays
    | doneWait me => rw [hpc] at stays; cases stays
    | load me next =>
      rw [hpc] at h
      exact Option.some.inj h ▸ put rfl trivial rfl
    | store me dst =>
      rw [hpc] at h
      obtain rfl := Option.some.inj h
      cases me with
      | none => exact put rfl trivial rfl
      | some me => exact put rfl trivial rfl
    | clear me dst =>
      rw [hpc] at h
      exact Option.some.inj h ▸ put rfl trivial rfl
    | resume dst =>
      rw [hpc] at h
      exact Option.some.inj h ▸ put rfl trivial rfl
    | sleepWrite me wake =>
      rw [hpc] at h
      exact Option.some.inj h ▸ put rfl trivial rfl
    | exitWrite me =>
      rw [hpc] at h
      exact Option.some.inj h ▸ put rfl trivial rfl
    | lookup job pid i =>
      rw [hpc] at h
      obtain rfl := Option.some.inj h
      unfold lookupStep
      split
      · refine put rfl ?_ ?_ <;> (dsimp only; split <;> trivial)
      · exact put rfl trivial rfl
    | lookupPid job pid i =>
      rw [hpc] at h
      obtain rfl := Option.some.inj h
      refine put rfl ?_ ?_ <;> (dsimp only; split <;> (cases job <;> trivial))
    | kill pc t =>
      rw [hpc] at h fresh
      obtain rfl := Option.some.inj h
      cases pc with
      | idle => refine put rfl ?_ ?_ <;> (dsimp only; split <;> trivial)
      | shell => refine put rfl ?_ ?_ <;> (dsimp only; split <;> trivial)
      | finished => refine put rfl ?_ ?_ <;> (dsimp only; split <;> trivial)
      | request => exact put rfl trivial rfl
      | asleep =>
        refine put rfl ?_ ?_
        · dsimp only
          split
          · rename_i asleep
            exact asleep
          · trivial
        · dsimp only
          split <;> rfl
      | wake =>
        refine put rfl ?_ rfl
        show (upd s.tasks t _ t).state = _
        rw [upd_same]
        exact fresh
      | ready => exact put rfl trivial rfl
    | reap pc t =>
      rw [hpc] at h fresh
      obtain rfl := Option.some.inj h
      cases pc with
      | finished =>
        refine put rfl ?_ ?_
        · dsimp only
          split
          · rename_i done
            exact done
          · trivial
        · dsimp only
          split <;> rfl
      | takeStack =>
        refine put rfl ?_ ?_ <;> (dsimp only; split)
        · exact fresh
        · exact fresh
        · rfl
        · rfl
      | release stack => exact put rfl fresh rfl
      | dropStack =>
        refine put rfl ?_ rfl
        show (upd s.tasks t _ t).state = _
        rw [upd_same]
        exact fresh
      | free => exact put rfl trivial rfl
    | reserve affinity =>
      rw [hpc] at h
      obtain rfl := Option.some.inj h
      unfold reserve
      split
      · exact put rfl trivial rfl
      · split
        · refine put rfl ?_ ?_ <;> (dsimp only; split <;> trivial)
        · exact put rfl trivial rfl
    | spawn pc l =>
      rw [hpc] at h
      cases pc with
      | alloc => cases h
      | fetchPid => exact Option.some.inj h ▸ put rfl rfl rfl
      | _ => exact Option.some.inj h ▸ put rfl trivial rfl

theorem nothingElse_fresh (me : Option Slot) :
    ((nothingElse s c me).cores c).pc.Fresh (nothingElse s c me) := by
  have goto (u : Sys) {pc' : Pc} (fresh : pc'.Fresh (u.goto c pc')) :
      ((u.goto c pc').cores c).pc.Fresh (u.goto c pc') := by
    rw [Sys.goto_cores, if_pos rfl]
    exact fresh
  unfold nothingElse
  split
  · exact goto _ trivial
  · split
    · exact goto _ trivial
    · exact goto _ trivial
    · split
      · unfold backToSched
        dsimp only
        rw [Sys.setCore_cores, if_pos rfl]
        trivial
      · exact goto _ trivial
    · exact goto _ trivial

theorem moved_claim (me : Option Slot) (next : Slot) : Moved s (claim s c me next) c := by
  unfold claim
  split
  · exact .of_eq rfl trivial
  · exact .of_eq rfl trivial

/-- A decision. -/
theorem moved_decision {now : BitVec 32} (h : Sched.step s (c, .go now) = some s')
    (decides : (s.cores c).pc.decides = true) : Moved s s' c := by
  simp only [Sched.step, go] at h
  cases hpc : (s.cores c).pc with
  | sched parkAs =>
    rw [hpc] at h
    obtain rfl := Option.some.inj h
    have on {u : Sys} (moved : Moved (parkMe (remember s c) (cur s c) parkAs) u c) : Moved s u c := by
      refine ⟨fun d ne => ?_, moved.fresh⟩
      rw [moved.others d ne, parkMe_cores, remember_other ne]
    unfold reschedule
    dsimp only
    split
    · exact on (moved_claim _ _)
    · exact on ⟨fun d ne => nothingElse_cores ne, nothingElse_fresh _⟩
  | sleepWait me wake =>
    rw [hpc] at h
    obtain rfl := Option.some.inj h
    unfold sleepTurn
    split
    · exact .of_eq rfl trivial
    · split
      · exact moved_claim _ _
      · refine ⟨fun _ _ => rfl, ?_⟩
        rw [hpc]
        trivial
  | doneWait me =>
    rw [hpc] at h
    obtain rfl := Option.some.inj h
    unfold doneTurn
    split
    · exact moved_claim _ _
    · refine ⟨fun _ _ => rfl, ?_⟩
      rw [hpc]
      trivial
  | _ => rw [hpc] at decides; cases decides

theorem step_moved {a : Core × Move} (h : Sched.step s a = some s') (fresh : (s.cores a.1).pc.Fresh s) :
    Moved s s' a.1 := by
  obtain ⟨c, m⟩ := a
  cases decides : (s.cores c).pc.decides with
  | false => exact (moved_step h decides fresh).1
  | true =>
    cases m with
    | go now => exact moved_decision h decides
    | call op now =>
      simp only [Sched.step] at h
      split at h
      · rename_i user
        rw [user] at decides
        cases decides
      · cases h
    | malloc ok =>
      simp only [Sched.step] at h
      split at h
      · rename_i hpc
        rw [hpc] at decides
        cases decides
      · cases h

theorem OneCore.core {a : Core × Move} (one : OneCore s a) : a.1 = 0 := by
  obtain ⟨c, m⟩ := a
  cases m with
  | go now => exact one.1
  | _ => exact one

theorem Single.step (single : Single s) {a : Core × Move} (one : OneCore s a) (h : Sched.step s a = some s') :
    Single s' := by
  have core := one.core
  have moved := step_moved h (by rw [core]; exact single.fresh)
  rw [core] at moved
  refine ⟨?_, moved.fresh⟩
  rw [moved.others 1 (by decide)]
  exact single.idle

theorem taskInit_single : Single taskInit := ⟨⟨rfl, rfl⟩, trivial⟩

/-- One core acts on what is still so. -/
theorem Single.orderly (single : Single s) {a : Core × Move} (one : OneCore s a) : Orderly s a := by
  obtain ⟨c, m⟩ := a
  cases m with
  | call op now => trivial
  | malloc ok => trivial
  | go now =>
    obtain ⟨rfl, count⟩ := one
    have fresh := single.fresh
    have cores (d : Core) : d = 0 ∨ d = 1 := by revert d; decide
    have left {t : Slot} (done : (s.tasks t).state = .done) (mine : (s.cores 0).pc.leaving (cur s 0) = none) :
        Left s t := by
      refine ⟨done, fun d => ?_⟩
      unfold Leaving
      rcases cores d with rfl | rfl
      · rw [mine]
        exact fun no => by cases no
      · rw [single.idle.1]
        exact fun no => by cases no
    show (s.cores 0).pc.orderly s = true
    cases hpc : (s.cores 0).pc with
    | kill pc t =>
      rw [hpc] at fresh
      cases pc with
      | ready =>
        show (s.tasks t).state.alive = true
        rw [show (s.tasks t).state = .sleeping from fresh]
        rfl
      | _ => rfl
    | reap pc t =>
      rw [hpc] at fresh
      have mine : (s.cores 0).pc.leaving (cur s 0) = none := by rw [hpc]; rfl
      cases pc with
      | takeStack => exact decide_eq_true (left fresh mine)
      | free => exact decide_eq_true (.inr (left fresh mine))
      | _ => rfl
    | reserve affinity =>
      have mine : (s.cores 0).pc.leaving (cur s 0) = none := by rw [hpc]; rfl
      cases free : freeSlot s with
      | some t =>
        simp only [Pc.orderly, free, decide_eq_true_eq]
        intro d
        rcases cores d with rfl | rfl
        · rw [hpc]
          exact fun no => by cases no
        · rw [single.idle.1]
          exact fun no => by cases no
      | none =>
        simp only [Pc.orderly, free, decide_eq_true_eq]
        exact fun t oldest => left (oldestDone_some oldest) mine
    | spawn pc l =>
      rw [hpc] at fresh count
      cases pc with
      | storePid =>
        have same : s.nextPid = l.pid := fresh
        exact decide_eq_true ⟨same, same ▸ count rfl⟩
      | _ => rfl
    | _ => rfl

/-! ### Picks -/

/-- What `runnable_on` asks of a task that is on no core: ready or past its deadline, and allowed on the core. -/
def Runnable (s : Sys) (i : Slot) (c : Core) (now : BitVec 32) : Prop :=
  ((s.tasks i).state = .ready ∨ (s.tasks i).state = .sleeping ∧ due now (s.tasks i).wakeAt = true) ∧
    ((s.tasks i).affinity = .any ∨ (s.tasks i).affinity = .core0 ∧ c = 0 ∨ (s.tasks i).affinity = .core1 ∧ c = 1)

/-- The slot that a move picks. -/
def picks (s : Sys) : Core × Move → Option Slot
  | (c, .go now) => match (s.cores c).pc with
    | .sched parkAs =>
      let parked := parkMe (remember s c) (cur s c) parkAs
      pick parked c (pidOf parked (cur s c)) now
    | .sleepWait me wake => if due now wake then none else pick s c (s.tasks me).pid now
    | .doneWait _ => pick s c 0 now
    | _ => none
  | _ => none

/-- Slot `i`'s task can run whenever a core decides. -/
def Stays (i : Slot) (s : Sys) : Core × Move → Prop
  | (c, .go now) => (s.cores c).pc.decides = true → Runnable s i c now
  | _ => True

/-- How far the slot `x` is after `b`, round. -/
def ahead (b x : Slot) : Nat := (x.val + taskMax - b.val) % taskMax

theorem runnableOn_iff {i : Slot} {now : BitVec 32} (live : (s.tasks i).live = false) :
    runnableOn (s.tasks i) c now = true ↔ Runnable s i c now := by
  unfold runnableOn Runnable
  rw [live]
  cases (s.tasks i).state <;> cases (s.tasks i).affinity <;> simp

/-- `pick` takes the first slot that can run, from the one after the outgoing task's. -/
theorem pick_first {k next : Slot} {now : BitVec 32} (from_ : slotOf s (s.tasks k).pid = some k)
    (picked : pick s c (s.tasks k).pid now = some next) :
    ∃ n, n < taskMax ∧ next.val = (k.val + 1 + n) % taskMax ∧ ∀ i : Slot, (s.tasks i).state ≠ .free →
      runnableOn (s.tasks i) c now = true → ∀ m < n, i.val ≠ (k.val + 1 + m) % taskMax := by
  rw [pick, pickOrder, from_, List.find?_map, Option.map_eq_some_iff] at picked
  obtain ⟨n, found, next_eq⟩ := picked
  obtain ⟨-, mem, before⟩ := List.find?_range_eq_some.mp found
  refine ⟨n, List.mem_range.mp mem, ?_, fun i used runnable m less at_ => ?_⟩
  · rw [← next_eq]
    rfl
  · have no := before m less
    have slot : Fin.ofNat taskMax (k.val + 1 + m) = i := Fin.ext at_.symm
    simp only [Function.comp_apply, slot, runnable, decide_eq_true used] at no
    cases no

theorem pick_isSome {after : Int} {i : Slot} {now : BitVec 32} (used : (s.tasks i).state ≠ .free)
    (runnable : runnableOn (s.tasks i) c now = true) : pick s c after now ≠ none := by
  intro nothing
  rw [pick, List.find?_eq_none] at nothing
  obtain ⟨start, order⟩ : ∃ start, pickOrder s after =
      (List.range taskMax).map fun n => Fin.ofNat taskMax (start + n) := ⟨_, rfl⟩
  have mem : i ∈ pickOrder s after := by
    rw [order]
    refine List.mem_map.mpr ⟨(i.val + (taskMax - start % taskMax)) % taskMax,
      List.mem_range.mpr (Nat.mod_lt _ (by decide)), Fin.ext ?_⟩
    show (start + (i.val + (taskMax - start % taskMax)) % taskMax) % taskMax = i.val
    have lt := i.isLt
    unfold taskMax at *
    omega
  exact nothing i mem (by rw [decide_eq_true used, runnable]; rfl)

/-- A pick from a slot that is before `a`'s passes no slot that can run: it comes closer to `a`, or takes it. -/
theorem ahead_pick {a b k next : Slot} {now : BitVec 32} (from_ : slotOf s (s.tasks k).pid = some k)
    (picked : pick s c (s.tasks k).pid now = some next) (used : (s.tasks a).state ≠ .free)
    (runnable : runnableOn (s.tasks a) c now = true) (before : ahead b k < ahead b a) :
    ahead b k < ahead b next ∧ ahead b next ≤ ahead b a := by
  obtain ⟨n, lt, next_eq, passed⟩ := pick_first from_ picked
  have notBefore := fun m less => passed a used runnable m less
  have passes : n ≤ (a.val + taskMax - (k.val + 1)) % taskMax := by
    by_contra less
    refine notBefore _ (Nat.not_le.mp less) ?_
    have := a.isLt
    have := k.isLt
    unfold taskMax at *
    omega
  have := a.isLt
  have := b.isLt
  have := k.isLt
  unfold ahead at *
  unfold taskMax at *
  omega

/-! ### Turns -/

theorem Inv.slotOf_held (inv : Inv s held) {k : Slot} (on : held c = some k) : slotOf s (s.tasks k).pid = some k := by
  have owned := inv.held_owned on
  have pos := inv.pid_pos k owned
  refine slotOf_of_unique (fun free => ?_) rfl fun i same => inv.pid_inj i k same (same ▸ pos)
  rw [free] at owned
  cases owned

/-- The core goes to the task it picks. -/
theorem Inv.picked (inv : Inv s held) {now : BitVec 32} {next : Slot} (picked : picks s (c, .go now) = some next)
    (h : Sched.step s (c, .go now) = some s') :
    Inv s' (upd held c (some next)) ∧ ∃ me, (s'.cores c).pc = .load me next := by
  have loads {u : Sys} (inv : Inv u held) {after : Int} (claimed : pick u c after now = some next) :
      ((Sched.claim u c (held c) next).cores c).pc = .load (held c) next := by
    rw [claim_cores fun on => inv.not_holds (pick_some claimed).1 c (.inl on), upd_same]
  simp only [Sched.step, go] at h
  simp only [picks] at picked
  have ok := inv.pc c
  cases hpc : (s.cores c).pc with
  | sched parkAs =>
    rw [hpc] at h
    obtain rfl := Option.some.inj h
    simp only [hpc, inv.cur_eq] at picked
    have parked := (inv.remember c).parkMe ((remember_pc c).trans hpc)
    have hpc' : ((Sched.parkMe (Sched.remember s c) (held c) parkAs).cores c).pc = .sched parkAs := by
      rw [parkMe_cores, remember_pc, hpc]
    have claimed : Sched.reschedule s c parkAs now =
        Sched.claim (Sched.parkMe (Sched.remember s c) (held c) parkAs) c (held c) next := by
      simp only [Sched.reschedule, inv.cur_eq, picked]
    rw [claimed]
    exact ⟨parked.claim (by rw [hpc']; rfl) (by rw [hpc']; rfl) (pick_some picked), held c, loads parked picked⟩
  | sleepWait me wake =>
    rw [hpc] at h ok
    obtain rfl := Option.some.inj h
    simp only [hpc] at picked
    split at picked
    · cases picked
    rename_i early
    have on : held c = some me := ok
    have claimed : Sched.sleepTurn s c me wake now = Sched.claim s c (held c) next := by
      rw [Sched.sleepTurn, if_neg early, picked, on]
    rw [claimed]
    exact ⟨inv.claim (by rw [hpc]; rfl) (by rw [hpc]; rfl) (pick_some picked), held c, loads inv picked⟩
  | doneWait me =>
    rw [hpc] at h ok
    obtain rfl := Option.some.inj h
    simp only [hpc] at picked
    have on : held c = some me := ok
    have claimed : Sched.doneTurn s c me now = Sched.claim s c (held c) next := by
      rw [Sched.doneTurn, picked, on]
    rw [claimed]
    exact ⟨inv.claim (by rw [hpc]; rfl) (by rw [hpc]; rfl) (pick_some picked), held c, loads inv picked⟩
  | _ => simp only [hpc] at picked; cases picked

/-- Since `b` was picked, every pick went to a slot on the way from `b`'s to `a`'s. -/
structure Turn (s : Sys) (a b : Slot) : Prop where
  single : Single s
  calm : (s.cores 0).pc.waits = false
  between : ∃ held, Inv s held ∧ ∃ k, held 0 = some k ∧ ahead b k < ahead b a

/-- While `a` can run, the core's decisions pick, and no pick passes it. -/
theorem Turn.picks {a b : Slot} (turn : Turn s a b) {now : BitVec 32} (decides : (s.cores 0).pc.decides = true)
    (stays : Runnable s a 0 now) : ∃ held k next, Inv s held ∧ held 0 = some k ∧
      Sched.picks s (0, .go now) = some next ∧ ahead b k < ahead b next ∧ ahead b next ≤ ahead b a := by
  obtain ⟨held, inv, k, on, before⟩ := turn.between
  have ne : a ≠ k := fun eq => by rw [eq] at before; exact lt_irrefl _ before
  have cores (d : Core) : d = 0 ∨ d = 1 := by revert d; decide
  have calm := turn.calm
  cases hpc : (s.cores 0).pc with
  | sched parkAs =>
    have live : (s.tasks a).live = false := by
      refine inv.live_of_idle fun d => ?_
      rcases cores d with rfl | rfl
      · rintro (here | leaving)
        · exact ne (Option.some.inj (here.symm.trans on))
        · rw [hpc] at leaving
          cases leaving
      · rintro (here | leaving)
        · have current := inv.current 1
          rw [here, turn.single.idle.2] at current
          have pos := (inv.pid_range a).1
          simp only [Option.elim_some] at current
          omega
        · rw [turn.single.idle.1] at leaving
          cases leaving
    have parked := (inv.remember 0).parkMe ((remember_pc 0).trans hpc)
    have task : (Sched.parkMe (Sched.remember s 0) (held 0) parkAs).tasks a = s.tasks a := by
      rw [on, Sched.parkMe, Sys.setTask_tasks, if_neg ne, remember_tasks]
    have runnable : runnableOn ((Sched.parkMe (Sched.remember s 0) (held 0) parkAs).tasks a) 0 now = true := by
      rw [task]
      exact (runnableOn_iff live).mpr stays
    have used : ((Sched.parkMe (Sched.remember s 0) (held 0) parkAs).tasks a).state ≠ .free := by
      rw [task]
      intro free
      rcases stays.1 with ready | ⟨sleeping, -⟩
      · rw [free] at ready
        cases ready
      · rw [free] at sleeping
        cases sleeping
    have picks_eq : Sched.picks s (0, .go now) = pick (Sched.parkMe (Sched.remember s 0) (held 0) parkAs) 0
        ((Sched.parkMe (Sched.remember s 0) (held 0) parkAs).tasks k).pid now := by
      simp only [Sched.picks, hpc, inv.cur_eq]
      rw [on, pidOf]
    cases picked : pick (Sched.parkMe (Sched.remember s 0) (held 0) parkAs) 0
        ((Sched.parkMe (Sched.remember s 0) (held 0) parkAs).tasks k).pid now with
    | none => exact absurd picked (pick_isSome used runnable)
    | some next =>
      have way := ahead_pick (parked.slotOf_held on) picked used runnable before
      exact ⟨held, k, next, inv, on, picks_eq.trans picked, way⟩
  | sleepWait me wake => rw [hpc] at calm; cases calm
  | doneWait me => rw [hpc] at calm; cases calm
  | _ => rw [hpc] at decides; cases decides

theorem Turn.step {a b : Slot} (turn : Turn s a b) {x : Core × Move} (one : OneCore s x) (stays : Stays a s x)
    (unpicked : Sched.picks s x ≠ some a) (taken : Sched.step s x = some s') : Turn s' a b := by
  have single := turn.single.step one taken
  obtain ⟨c, m⟩ := x
  obtain rfl : c = 0 := one.core
  cases decides : (s.cores 0).pc.decides with
  | false =>
    obtain ⟨held, inv, between⟩ := turn.between
    exact ⟨single, (moved_step taken decides turn.single.fresh).2, held,
      inv.step_held (turn.single.orderly one) taken decides, between⟩
  | true =>
    cases m with
    | go now =>
      obtain ⟨held, k, next, inv, -, picked, closer, upTo⟩ := turn.picks decides (stays decides)
      obtain ⟨inv', me, pc⟩ := inv.picked picked taken
      refine ⟨single, by rw [pc]; rfl, _, inv', next, upd_same, lt_of_le_of_ne upTo fun same => unpicked ?_⟩
      rw [picked]
      refine congrArg some (Fin.ext ?_)
      have := a.isLt
      have := b.isLt
      have := next.isLt
      unfold ahead at same
      unfold taskMax at *
      omega
    | call op now =>
      simp only [Sched.step] at taken
      split at taken
      · rename_i user
        rw [user] at decides
        cases decides
      · cases taken
    | malloc ok =>
      simp only [Sched.step] at taken
      split at taken
      · rename_i hpc
        rw [hpc] at decides
        cases decides
      · cases taken

/-- A move of the one core during which slot `a`'s task can run and is not picked. -/
def Passing (a : Slot) (s : Sys) (x : Core × Move) : Prop := OneCore s x ∧ Stays a s x ∧ picks s x ≠ some a

instance {i : Slot} {now : BitVec 32} : Decidable (Runnable s i c now) := inferInstanceAs (Decidable (_ ∧ _))

instance (a : Slot) (s : Sys) : (x : Core × Move) → Decidable (Passing a s x)
  | (_, .go _) => inferInstanceAs (Decidable (_ ∧ (_ → _) ∧ _))
  | (_, .call ..) | (_, .malloc _) => inferInstanceAs (Decidable (_ ∧ True ∧ _))

/-- Between two picks of slot `b`, a task that could run all along has been picked: after a pick of `b`, as long as slot
`a`'s task can run whenever the core decides and is not picked, `b` is not picked again. -/
theorem round_robin {a b : Slot} {s₁ t : Sys} {first last : Core × Move} (ne : a ≠ b)
    (run : Run step OneCore taskInit s) (one : OneCore s first) (picked : picks s first = some b)
    (taken : step s first = some s₁) (between : Run step (Passing a) s₁ t) (one' : OneCore t last)
    (stays : Stays a t last) : picks t last ≠ some b := by
  have whole : Single s ∧ ∃ held, Inv s held :=
    run.invariant (P := fun s => Single s ∧ ∃ held, Inv s held) ⟨taskInit_single, taskInit_start.inv⟩
      fun _ _ _ inv one taken => ⟨inv.1.step one taken, inv.2.elim fun _ held => held.step (inv.1.orderly one) taken⟩
  obtain ⟨single, held, inv⟩ := whole
  have start : Turn s₁ a b := by
    have single' := single.step one taken
    obtain ⟨c, m⟩ := first
    obtain rfl : c = 0 := one.core
    cases m with
    | go now =>
      obtain ⟨inv', me, pc⟩ := inv.picked picked taken
      refine ⟨single', by rw [pc]; rfl, _, inv', b, upd_same, ?_⟩
      have apart : a.val ≠ b.val := fun same => ne (Fin.ext same)
      have := a.isLt
      have := b.isLt
      unfold ahead
      unfold taskMax at *
      omega
    | call op now => cases picked
    | malloc ok => cases picked
  have turn : Turn t a b :=
    between.invariant (P := fun u => Turn u a b) start fun _ _ _ turn passing taken =>
      turn.step passing.1 passing.2.1 passing.2.2 taken
  obtain ⟨c, m⟩ := last
  obtain rfl : c = 0 := one'.core
  cases m with
  | call op now => exact fun no => by cases no
  | malloc ok => exact fun no => by cases no
  | go now =>
    cases decides : (t.cores 0).pc.decides with
    | false =>
      have nothing : picks t (0, .go now) = none := by
        simp only [picks]
        cases hpc : (t.cores 0).pc <;> first | rfl | (rw [hpc] at decides; cases decides)
      rw [nothing]
      exact fun no => by cases no
    | true =>
      obtain ⟨held, k, next, -, -, picked, closer, -⟩ := turn.picks decides (stays decides)
      rw [picked]
      intro same
      rw [Option.some.inj same] at closer
      have := b.isLt
      unfold ahead at closer
      unfold taskMax at *
      omega

/-- Core 0 has spawned two tasks and yields. -/
def twoReady : Sys :=
  (exec step taskInit (spawns 0 .any ++ spawns 0 .any ++ [(0, .call .yield 0)])).get (by decide +kernel)

/-- It has picked the first of them. -/
def firstPicked : Sys := (step twoReady (0, .go 0)).get (by decide +kernel)

/-- And that one yields in turn. -/
def firstYields : Sys := (exec step firstPicked (goes 0 4 ++ [(0, .call .yield 0)])).get (by decide +kernel)

theorem round_robin_two : picks firstYields (0, .go 0) ≠ some 1 := by
  have run : Run step OneCore taskInit twoReady := .of_exec_get _ (by decide +kernel)
  have taken : step twoReady (0, .go 0) = some firstPicked := (Option.some_get _).symm
  have between : Run step (Passing 2) firstPicked firstYields := .of_exec_get _ (by decide +kernel)
  exact round_robin (by decide) run (by decide +kernel) (by decide +kernel) taken between (by decide +kernel)
    (show _ → Runnable firstYields 2 0 0 from fun _ => by decide +kernel)

end

end RPCortex.Sched
