import RPCortex.Sched.Spawn

/-! `reschedule`, `task_exit` and the two halves of a context switch preserve the invariant. -/

namespace RPCortex.Sched

open Lib

/-- Core `c` stops executing its current task for the one in `dst`, or for the scheduler's own
context. -/
structure Departs (s s' : Sys) (held : Core → Option Slot) (c : Core) (dst : Option Slot) :
    Prop where
  task : ∀ i, dst = some i → s'.tasks i = { s.tasks i with state := .running, live := true }
  others : ∀ i, dst ≠ some i → s'.tasks i = s.tasks i
  cores : ∀ d, d ≠ c → s'.cores d = s.cores d
  current : (s'.cores c).current = dst.elim (-1) fun i => (s.tasks i).pid
  exec : (s'.cores c).exec = (s.cores c).exec
  schedSp : ∀ sp, (s'.cores c).schedSp = some sp → (s.cores c).schedSp = some sp
  outgoing : (s'.cores c).pc.outgoing = held c
  standing : ∀ h, (s'.cores c).pc.standing h = held c
  finishing : (s'.cores c).pc.finishing = false
  reserved : (s'.cores c).pc.reserved = none
  pendingPid : (s'.cores c).pc.pendingPid = none
  pendingStack : (s'.cores c).pc.pendingStack = none
  releasing : (s'.cores c).pc.releasing = none
  nextPid : s'.nextPid = s.nextPid
  nextStack : s'.nextStack = s.nextStack
  parks : s'.parks = beginPark s c
  exited : s'.exited = s.exited
  born : s'.born = s.born

section

variable {s s' : Sys} {held : Core → Option Slot} {c : Core}

theorem beginPark_ne {k : Nat} (h : (s.cores c).exec ≠ some k) : beginPark s c k = s.parks k := by
  unfold beginPark
  cases hk : (s.cores c).exec with
  | none => rfl
  | some k' => exact upd_ne fun e => h (by rw [hk, e])

/-- No other slot's context is the one that core `c` stands on. -/
theorem Inv.exec_ne (inv : Inv s held) {i : Slot} {k : Nat} (h : ¬Holds s held c i)
    (hk : (s.tasks i).inst = some k) : (s.cores c).exec ≠ some k := by
  rw [inv.exec c]
  cases hs : (s.cores c).pc.standing (held c) with
  | none => simp
  | some j =>
    intro hj
    have : j = i := inv.inst_inj j i k hj hk
    exact h (this ▸ standing_holds hs)

theorem Inv.exec_lt (inv : Inv s held) {k : Nat} (h : (s.cores c).exec = some k) :
    k < s.nextStack := by
  rw [inv.exec c] at h
  cases hs : (s.cores c).pc.standing (held c) with
  | none => simp [hs] at h
  | some i => rw [hs] at h; exact inv.inst_lt i k h

theorem Inv.departs (inv : Inv s held) {dst : Option Slot} (d : Departs s s' held c dst)
    (settled : (s.cores c).pc.outgoing = none) (stands : (s.cores c).pc.standing (held c) = held c)
    (waiting : ∀ i, dst = some i → (s.tasks i).live = false ∧ (s.tasks i).state.alive)
    (ok : (s'.cores c).pc.Ok s' dst) : Inv s' (upd held c dst) := by
  have free {i : Slot} (h : dst = some i) (e : Core) : ¬Holds s held e i :=
    inv.not_holds (waiting i h).1 e
  have stays {e : Core} {i : Slot} (h : Holds s held e i) : s'.tasks i = s.tasks i :=
    d.others i fun hi => free hi e h
  have parks {e : Core} {i : Slot} {k : Nat} (hi : ¬Holds s held e i) (he : e = c)
      (hk : (s.tasks i).inst = some k) : s'.parks k = s.parks k := by
    rw [d.parks]
    exact beginPark_ne (he ▸ inv.exec_ne hi hk)
  have pid (i : Slot) : (s'.tasks i).pid = (s.tasks i).pid := by
    by_cases h : dst = some i
    · rw [d.task i h]
    · rw [d.others i h]
  have inst (i : Slot) : (s'.tasks i).inst = (s.tasks i).inst := by
    by_cases h : dst = some i
    · rw [d.task i h]
    · rw [d.others i h]
  have state (i : Slot) : (s'.tasks i).state = (s.tasks i).state ∨
      dst = some i ∧ (s'.tasks i).state.alive ∧ (s.tasks i).state.alive := by
    by_cases h : dst = some i
    · rw [d.task i h]; exact .inr ⟨h, rfl, (waiting i h).2⟩
    · rw [d.others i h]; exact .inl rfl
  have alive (i : Slot) : (s'.tasks i).state.alive = (s.tasks i).state.alive := by
    obtain h | ⟨-, h, h'⟩ := state i
    · rw [h]
    · rw [h, h']
  have done (i : Slot) : (s'.tasks i).state = .done ↔ (s.tasks i).state = .done := by
    obtain h | ⟨-, h, h'⟩ := state i
    · rw [h]
    · constructor <;> intro e <;> simp [e, TaskState.alive] at h h'
  have owned (i : Slot) : (s'.tasks i).state.owned = (s.tasks i).state.owned := by
    simp only [TaskState.owned, alive, done]
  have exec (e : Core) : (s'.cores e).exec = (s.cores e).exec := by
    by_cases he : e = c
    · rw [he, d.exec]
    · rw [d.cores e he]
  have holds (e : Core) (i : Slot) : Holds s' (upd held c dst) e i ↔
      Holds s held e i ∨ e = c ∧ dst = some i := by
    unfold Holds
    by_cases he : e = c
    · rw [he, upd_same, d.outgoing, settled]
      constructor <;> simp <;> tauto
    · rw [upd_ne he, d.cores e he]
      simp [he]
  have others {α : Type} (f : CoreState → Option α) (hf : f (s'.cores c) = none) {e : Core} {a : α}
      (h : f (s'.cores e) = some a) : f (s.cores e) = some a := by
    by_cases he : e = c
    · rw [he, hf] at h; cases h
    · rwa [d.cores e he] at h
  constructor
  case pid_range => simpa only [pid, d.nextPid] using inv.pid_range
  case pid_inj => simpa only [pid] using inv.pid_inj
  case pid_pos => simpa only [pid, owned] using inv.pid_pos
  case nextPid_pos => rw [d.nextPid]; exact inv.nextPid_pos
  case current =>
    intro e
    simp only [pid]
    by_cases he : e = c
    · rw [he, upd_same, d.current]
    · rw [upd_ne he, d.cores e he]; exact inv.current e
  case live_iff =>
    intro i
    simp only [holds]
    by_cases h : dst = some i
    · simp [d.task i h, h]
    · rw [d.others i h, inv.live_iff i]
      simp [h]
  case excl =>
    intro e f i he hf
    rw [holds] at he hf
    obtain he | ⟨rfl, he⟩ := he <;> obtain hf | ⟨rfl, hf⟩ := hf
    · exact inv.excl e f i he hf
    · exact absurd he (free hf e)
    · exact absurd hf (free he f)
    · rfl
  case outgoing_ne =>
    intro e i he
    by_cases hec : e = c
    · rw [hec, d.outgoing] at he
      rw [hec, upd_same]
      exact fun h => free h c (.inl he)
    · rw [d.cores e hec] at he
      rw [upd_ne hec]
      exact inv.outgoing_ne e i he
  case exec =>
    intro e
    simp only [exec, inst]
    by_cases he : e = c
    · rw [he, upd_same, d.standing, inv.exec c, stands]
    · rw [upd_ne he, d.cores e he]; exact inv.exec e
  case held_alive =>
    intro e i he hf
    rw [alive]
    by_cases hec : e = c
    · rw [hec, upd_same] at he; exact (waiting i he).2
    · rw [upd_ne hec] at he
      rw [d.cores e hec] at hf
      exact inv.held_alive e i he hf
  case held_done =>
    intro e i he hf
    rw [done]
    by_cases hec : e = c
    · rw [hec, d.finishing] at hf; cases hf
    · rw [upd_ne hec] at he
      rw [d.cores e hec] at hf
      exact inv.held_done e i he hf
  case outgoing_owned =>
    intro e i he
    rw [owned]
    by_cases hec : e = c
    · rw [hec, d.outgoing] at he; exact inv.held_owned he
    · rw [d.cores e hec] at he; exact inv.outgoing_owned e i he
  case schedSp =>
    intro e sp he
    by_cases hec : e = c
    · rw [hec] at he; exact inv.schedSp c sp (d.schedSp sp he)
    · rw [d.cores e hec] at he; exact inv.schedSp e sp he
  case pc =>
    intro e
    by_cases he : e = c
    · rw [he, upd_same]; exact ok
    · rw [upd_ne he, d.cores e he]
      refine (inv.pc e).frame fun i hi => ?_
      have off : ¬Holds s held c i := by
        intro hc
        obtain h | h | h := hi
        · exact he (inv.excl e c i (.inl h) hc)
        · exact he (inv.excl e c i (.inr h) hc)
        · exact inv.not_reserved (inv.owned_of_holds hc) e h
      have ne : dst ≠ some i := by
        intro h'
        obtain h | h | h := hi
        · exact free h' e (.inl h)
        · exact free h' e (.inr h)
        · exact inv.not_reserved (TaskState.owned_of_alive (waiting i h').2) e h
      exact ⟨d.others i ne, fun k hk => ⟨parks off rfl hk, by rw [d.exited]⟩⟩
  case inst_some => simpa only [owned, inst] using inv.inst_some
  case inst_lt => simpa only [inst, d.nextStack] using inv.inst_lt
  case inst_inj => simpa only [inst] using inv.inst_inj
  case parked =>
    intro i hi hl
    have ne : dst ≠ some i := by
      intro h
      simp [d.task i h] at hl
    rw [d.others i ne] at hi hl ⊢
    rw [inv.parked i hi hl]
    unfold latest
    cases hinst : (s.tasks i).inst with
    | none => rfl
    | some k => simp [parks (inv.not_holds hl c) rfl hinst]
  case alive_not_exited => simpa only [alive, inst, d.exited] using inv.alive_not_exited
  case done_exited => simpa only [done, inst, d.exited] using inv.done_exited
  case stackRaw =>
    intro i k h
    rw [inst]
    refine inv.stackRaw i k ?_
    by_cases hi : dst = some i
    · rwa [d.task i hi] at h
    · rwa [d.others i hi] at h
  case fresh =>
    intro k hk
    rw [d.nextStack] at hk
    rw [d.exited, d.parks, beginPark_ne]
    · exact inv.fresh k hk
    · exact fun h => absurd (inv.exec_lt h) (by omega)
  case reserved_inj =>
    intro e f i he hf
    exact inv.reserved_inj e f i (others (fun k => k.pc.reserved) d.reserved he)
      (others (fun k => k.pc.reserved) d.reserved hf)
  case pendingPid =>
    intro e p he
    simp only [pid, d.nextPid]
    obtain ⟨h0, h1, h2, h3⟩ :=
      inv.pendingPid e p (others (fun k => k.pc.pendingPid) d.pendingPid he)
    exact ⟨h0, h1, h2, fun f hf => h3 f (others (fun k => k.pc.pendingPid) d.pendingPid hf)⟩
  case pendingStack =>
    intro e k he
    obtain ⟨h0, h1, h2, h3, h4⟩ :=
      inv.pendingStack e k (others (fun k => k.pc.pendingStack) d.pendingStack he)
    have off : (s.cores c).exec ≠ some k := by
      rw [inv.exec c]
      cases (s.cores c).pc.standing (held c) with
      | none => simp
      | some i => exact h3 i
    simp only [inst, d.nextStack, d.exited, d.parks, beginPark_ne off]
    exact ⟨h0, h1, h2, h3, fun f hf =>
      h4 f (others (fun k => k.pc.pendingStack) d.pendingStack hf)⟩
  case releasing =>
    intro e k he
    simp only [exec, d.exited]
    exact inv.releasing e k (others (fun k => k.pc.releasing) d.releasing he)
  case born => simpa only [d.born, pid, owned] using inv.born
  case born_inj => rw [d.born]; exact inv.born_inj

/-- `reschedule` claims a task for a core that has left `user`. -/
theorem Inv.claim (inv : Inv s held) {next : Slot} (outgoing : (s.cores c).pc.outgoing = none)
    (stands : (s.cores c).pc.standing (held c) = held c)
    (waiting : (s.tasks next).live = false ∧ (s.tasks next).state.alive) :
    Inv (claim s c (held c) next) (upd held c (some next)) := by
  have ne : held c ≠ some next := fun h => inv.not_holds waiting.1 c (.inl h)
  unfold Sched.claim
  rw [if_neg ne]
  have hinst : (s.cores c).exec = ((held c).bind fun i => (s.tasks i).inst) := by
    rw [inv.exec c, stands]
  refine inv.departs ?_ outgoing stands (by rintro i ⟨⟩; exact waiting) ?_
  · constructor
    case task => rintro i ⟨⟩; simp [Sys.setTask_tasks]
    case others =>
      intro i hi
      have : i ≠ next := fun e => hi (by rw [e])
      simp [Sys.setTask_tasks, this]
    case cores => intro d hd; simp [Sys.setCore_cores, hd]
    all_goals simp [Sys.setCore_cores, Pc.outgoing, Pc.standing, Pc.finishing, Pc.reserved,
      Pc.pendingPid, Pc.pendingStack, Pc.releasing]
  · simp only [Sys.setCore_cores, ↓reduceIte, Pc.Ok, true_and, Sys.setCore_tasks,
      Sys.setTask_tasks]
    rw [inv.parked next waiting.2 waiting.1]
    unfold latest
    cases hk : (s.tasks next).inst with
    | none => rfl
    | some k => simp [beginPark_ne (inv.exec_ne (inv.not_holds waiting.1 c) hk)]

/-- A finished task hands its core back to the scheduler's context. -/
theorem Inv.backToSched (inv : Inv s held) {me : Slot} {back : Sp}
    (outgoing : (s.cores c).pc.outgoing = none) (stands : (s.cores c).pc.standing (held c) = held c)
    (hme : held c = some me) (hback : (s.cores c).schedSp = some back) :
    Inv (backToSched s c me back) (upd held c none) := by
  refine inv.departs ?_ outgoing stands (by simp) ?_
  · constructor
    case cores => intro d hd; simp [Sched.backToSched, Sys.setCore_cores, hd]
    all_goals simp [Sched.backToSched, Sys.setCore_cores, Pc.outgoing, Pc.standing, Pc.finishing,
      Pc.reserved, Pc.pendingPid, Pc.pendingStack, Pc.releasing, hme]
  · simpa [Sched.backToSched, Sys.setCore_cores, Pc.Ok, latest] using inv.schedSp c back hback

/-- Core `c` leaves the context it was switching away from for that of its current task. -/
structure Arrives (s s' : Sys) (c : Core) (dst : Sp) : Prop where
  task : ∀ i, (s.cores c).pc.outgoing = some i → s'.tasks i = { s.tasks i with live := false }
  others : ∀ i, (s.cores c).pc.outgoing ≠ some i → s'.tasks i = s.tasks i
  cores : ∀ d, d ≠ c → s'.cores d = s.cores d
  current : (s'.cores c).current = (s.cores c).current
  exec : (s'.cores c).exec = dst.owner
  schedSp : ∀ sp, (s'.cores c).schedSp = some sp → (s.cores c).schedSp = some sp ∨
    sp = latest s none
  pc : (s'.cores c).pc = .resume dst
  nextPid : s'.nextPid = s.nextPid
  nextStack : s'.nextStack = s.nextStack
  parks : s'.parks = s.parks
  exited : s'.exited = s.exited
  born : s'.born = s.born

theorem Inv.arrives (inv : Inv s held) {dst : Sp} (a : Arrives s s' c dst)
    (hdst : dst = latest s ((held c).bind fun i => (s.tasks i).inst))
    (saved : ∀ i, (s.cores c).pc.outgoing = some i → (s.tasks i).sp = latest s (s.tasks i).inst)
    (finishing : (s.cores c).pc.finishing = false) : Inv s' held := by
  have field {α : Type} (f : Task → α) (hf : ∀ t : Task, f { t with live := false } = f t)
      (i : Slot) : f (s'.tasks i) = f (s.tasks i) := by
    by_cases h : (s.cores c).pc.outgoing = some i
    · rw [a.task i h, hf]
    · rw [a.others i h]
  have pid : ∀ i, (s'.tasks i).pid = (s.tasks i).pid := field Task.pid fun _ => rfl
  have state : ∀ i, (s'.tasks i).state = (s.tasks i).state := field Task.state fun _ => rfl
  have sp : ∀ i, (s'.tasks i).sp = (s.tasks i).sp := field Task.sp fun _ => rfl
  have stackRaw : ∀ i, (s'.tasks i).stackRaw = (s.tasks i).stackRaw :=
    field Task.stackRaw fun _ => rfl
  have inst : ∀ i, (s'.tasks i).inst = (s.tasks i).inst := field Task.inst fun _ => rfl
  have latest_eq (k : Option Nat) : latest s' k = latest s k := by simp only [latest, a.parks]
  have outgoing : (s'.cores c).pc.outgoing = none := by rw [a.pc]; rfl
  have holds (e : Core) (i : Slot) : Holds s' held e i ↔
      Holds s held e i ∧ ¬(e = c ∧ (s.cores c).pc.outgoing = some i) := by
    unfold Holds
    by_cases he : e = c
    · rw [he, outgoing]
      constructor
      · rintro (h | h)
        · exact ⟨.inl h, fun h' => inv.outgoing_ne c i h'.2 h⟩
        · cases h
      · rintro ⟨h | h, h'⟩
        · exact .inl h
        · exact absurd ⟨rfl, h⟩ h'
    · rw [a.cores e he]
      simp [he]
  have others {α : Type} (f : CoreState → Option α) (hf : f (s'.cores c) = none) {e : Core} {x : α}
      (h : f (s'.cores e) = some x) : f (s.cores e) = some x := by
    by_cases he : e = c
    · rw [he, hf] at h; cases h
    · rwa [a.cores e he] at h
  have reserved : (s'.cores c).pc.reserved = none := by rw [a.pc]; rfl
  have pendingPid : (s'.cores c).pc.pendingPid = none := by rw [a.pc]; rfl
  have pendingStack : (s'.cores c).pc.pendingStack = none := by rw [a.pc]; rfl
  have releasing : (s'.cores c).pc.releasing = none := by rw [a.pc]; rfl
  constructor
  case pid_range => simpa only [pid, a.nextPid] using inv.pid_range
  case pid_inj => simpa only [pid] using inv.pid_inj
  case pid_pos => simpa only [pid, state] using inv.pid_pos
  case nextPid_pos => rw [a.nextPid]; exact inv.nextPid_pos
  case current =>
    intro e
    simp only [pid]
    by_cases he : e = c
    · rw [he, a.current]; exact inv.current c
    · rw [a.cores e he]; exact inv.current e
  case live_iff =>
    intro i
    simp only [holds]
    by_cases h : (s.cores c).pc.outgoing = some i
    · simp only [a.task i h, h, Bool.false_eq_true, and_true, false_iff, not_exists, not_and,
        not_not]
      exact fun e he => inv.excl e c i he (.inr h)
    · rw [a.others i h, inv.live_iff i]
      simp [h]
  case excl =>
    intro e f i he hf
    exact inv.excl e f i ((holds e i).mp he).1 ((holds f i).mp hf).1
  case outgoing_ne =>
    intro e i he
    by_cases hec : e = c
    · rw [hec, outgoing] at he; cases he
    · rw [a.cores e hec] at he; exact inv.outgoing_ne e i he
  case exec =>
    intro e
    simp only [inst]
    by_cases he : e = c
    · rw [he, a.exec, a.pc, hdst]; rfl
    · rw [a.cores e he]; exact inv.exec e
  case held_alive =>
    intro e i he hf
    rw [state]
    by_cases hec : e = c
    · exact inv.held_alive e i he (hec ▸ finishing)
    · rw [a.cores e hec] at hf; exact inv.held_alive e i he hf
  case held_done =>
    intro e i he hf
    rw [state]
    by_cases hec : e = c
    · rw [hec, a.pc] at hf; cases hf
    · rw [a.cores e hec] at hf; exact inv.held_done e i he hf
  case outgoing_owned =>
    intro e i he
    rw [state]
    exact inv.outgoing_owned e i (others (fun k => k.pc.outgoing) outgoing he)
  case schedSp =>
    intro e sp he
    rw [latest_eq]
    by_cases hec : e = c
    · rw [hec] at he
      exact (a.schedSp sp he).elim (inv.schedSp c sp) id
    · rw [a.cores e hec] at he; exact inv.schedSp e sp he
  case pc =>
    intro e
    by_cases he : e = c
    · rw [he, a.pc]
      simpa only [Pc.Ok, latest_eq, inst] using hdst
    · rw [a.cores e he]
      refine (inv.pc e).frame fun i hi => ⟨a.others i fun h => ?_, fun k _ => ?_⟩
      · obtain h' | h' | h' := hi
        · exact he (inv.excl e c i (.inl h') (.inr h))
        · exact he (inv.excl e c i (.inr h') (.inr h))
        · exact inv.not_reserved (inv.outgoing_owned c i h) e h'
      · rw [a.parks, a.exited]; exact ⟨rfl, rfl⟩
  case inst_some => simpa only [state, inst] using inv.inst_some
  case inst_lt => simpa only [inst, a.nextStack] using inv.inst_lt
  case inst_inj => simpa only [inst] using inv.inst_inj
  case parked =>
    intro i hi hl
    rw [sp, inst, latest_eq]
    by_cases h : (s.cores c).pc.outgoing = some i
    · exact saved i h
    · rw [a.others i h] at hi hl
      exact inv.parked i hi hl
  case alive_not_exited => simpa only [state, inst, a.exited] using inv.alive_not_exited
  case done_exited => simpa only [state, inst, a.exited] using inv.done_exited
  case stackRaw => simpa only [stackRaw, inst] using inv.stackRaw
  case fresh => simpa only [a.nextStack, a.exited, a.parks] using inv.fresh
  case reserved_inj =>
    intro e f i he hf
    exact inv.reserved_inj e f i (others (fun k => k.pc.reserved) reserved he)
      (others (fun k => k.pc.reserved) reserved hf)
  case pendingPid =>
    intro e p he
    simp only [pid, a.nextPid]
    obtain ⟨h0, h1, h2, h3⟩ := inv.pendingPid e p (others (fun k => k.pc.pendingPid) pendingPid he)
    exact ⟨h0, h1, h2, fun f hf => h3 f (others (fun k => k.pc.pendingPid) pendingPid hf)⟩
  case pendingStack =>
    intro e k he
    simp only [inst, a.nextStack, a.exited, a.parks]
    obtain ⟨h0, h1, h2, h3, h4⟩ :=
      inv.pendingStack e k (others (fun k => k.pc.pendingStack) pendingStack he)
    exact ⟨h0, h1, h2, h3, fun f hf => h4 f (others (fun k => k.pc.pendingStack) pendingStack hf)⟩
  case releasing =>
    intro e k he
    obtain ⟨hex, off⟩ := inv.releasing e k (others (fun k => k.pc.releasing) releasing he)
    rw [a.exited]
    refine ⟨hex, fun d hd => ?_⟩
    by_cases hdc : d = c
    · -- the current task has not exited, so its context is not the one released
      rw [hdc, a.exec, hdst] at hd
      cases hheld : held c with
      | none => simp [hheld, latest] at hd
      | some i =>
        simp only [hheld, latest, Option.bind_some] at hd
        have := inv.alive_not_exited i k (inv.held_alive c i hheld finishing) hd
        rw [hex] at this
        cases this
    · rw [a.cores d hdc] at hd; exact off d hd
  case born => simpa only [a.born, pid, state] using inv.born
  case born_inj => rw [a.born]; exact inv.born_inj

/-- The stack pointer of the task that a core switches away from is saved in its slot. -/
theorem Inv.saveSp (inv : Inv s held) {me : Slot} {dst : Sp}
    (hpc : (s.cores c).pc = .store (some me) dst) :
    Inv (s.setTask me fun t => { t with sp := savedSp s c }) held := by
  have out : (s.cores c).pc.outgoing = some me := by rw [hpc]; rfl
  have live : (s.tasks me).live = true := (inv.live_iff me).mpr ⟨c, .inr out⟩
  have field {α : Type} (f : Task → α) (hf : ∀ t : Task, f { t with sp := savedSp s c } = f t)
      (i : Slot) : f ((s.setTask me fun t => { t with sp := savedSp s c }).tasks i) =
        f (s.tasks i) := by
    rw [Sys.setTask_tasks]
    split
    · subst i; exact hf _
    · rfl
  have pid := field Task.pid fun _ => rfl
  have state := field Task.state fun _ => rfl
  have stackRaw := field Task.stackRaw fun _ => rfl
  have liveEq := field Task.live fun _ => rfl
  have inst := field Task.inst fun _ => rfl
  exact { inv with
    pid_range := by simp only [pid]; exact inv.pid_range
    pid_inj := by simp only [pid]; exact inv.pid_inj
    pid_pos := by simp only [pid, state]; exact inv.pid_pos
    current := by simp only [pid]; exact inv.current
    live_iff := by simp only [liveEq]; exact inv.live_iff
    exec := by simp only [inst]; exact inv.exec
    held_alive := by simp only [state]; exact inv.held_alive
    held_done := by simp only [state]; exact inv.held_done
    outgoing_owned := by simp only [state]; exact inv.outgoing_owned
    pc := fun d => by
      by_cases hd : d = c
      · have ok := inv.pc c
        rw [hpc] at ok
        rw [hd, Sys.setTask_cores, hpc]
        simpa only [Pc.Ok, inst, latest, Sys.setTask_parks] using ok
      · refine (inv.pc d).frame fun i hi => ⟨?_, fun _ _ => ⟨rfl, rfl⟩⟩
        rw [Sys.setTask_tasks, if_neg]
        rintro rfl
        obtain h | h | h := hi
        · exact hd (inv.excl d c i (.inl h) (.inr out))
        · exact hd (inv.excl d c i (.inr h) (.inr out))
        · exact inv.not_reserved (inv.outgoing_owned c i out) d h
    inst_some := by simp only [state, inst]; exact inv.inst_some
    inst_lt := by simp only [inst]; exact inv.inst_lt
    inst_inj := by simp only [inst]; exact inv.inst_inj
    parked := fun i hi hl => by
      by_cases h : i = me
      · rw [liveEq, h, live] at hl; cases hl
      · rw [Sys.setTask_tasks, if_neg h] at hi hl ⊢; exact inv.parked i hi hl
    alive_not_exited := by simp only [state, inst]; exact inv.alive_not_exited
    done_exited := by simp only [state, inst]; exact inv.done_exited
    stackRaw := by simp only [stackRaw, inst]; exact inv.stackRaw
    pendingPid := by simp only [pid]; exact inv.pendingPid
    pendingStack := by simp only [inst]; exact inv.pendingStack
    born := by simp only [pid, state]; exact inv.born }

/-- `task_ctx_switch` stores the outgoing stack pointer. -/
theorem Inv.storeSp (inv : Inv s held) {me : Option Slot} {dst : Sp}
    (hpc : (s.cores c).pc = .store me dst) : Inv (storeSp s c dst me) held := by
  have ok := inv.pc c
  have exec := inv.exec c
  rw [hpc] at ok exec
  cases me with
  | some me =>
    refine (inv.saveSp hpc).goto ?_ (by simp [Pc.pendingPid]) (by simp [Pc.pendingStack]) ⟨?_, ?_⟩
      (by simp [Pc.releasing])
    · rw [Sys.setTask_cores, hpc]
      exact ⟨rfl, fun _ => rfl, rfl, fun _ h => h⟩
    · rw [show dst = _ from ok]
      unfold latest
      cases held c with
      | none => rfl
      | some i => by_cases h : i = me <;> simp [Sys.setTask_tasks, h]
    · simp [Sys.setTask_tasks, savedSp, exec, Pc.standing, latest]
  | none =>
    refine inv.arrives ?_ ok (by simp [hpc, Pc.outgoing]) (by rw [hpc]; rfl)
    constructor
    case schedSp =>
      simp [Sched.storeSp, Sys.setCore_cores, savedSp, exec, Pc.standing]
    case cores => intro d hd; simp [Sched.storeSp, Sys.setCore_cores, hd]
    all_goals simp [Sched.storeSp, Sys.setCore_cores, hpc, Pc.outgoing]

/-- `task_ctx_switch` clears the outgoing task's `live` and leaves its stack. -/
theorem Inv.clearLive (inv : Inv s held) {me : Slot} {dst : Sp}
    (hpc : (s.cores c).pc = .clear me dst) : Inv (clearLive s c me dst) held := by
  have ok := inv.pc c
  rw [hpc] at ok
  refine inv.arrives ?_ ok.1 ?_ (by rw [hpc]; rfl)
  · constructor
    case task =>
      rw [hpc]
      rintro i ⟨⟩
      simp [Sched.clearLive, Sys.setTask_tasks]
    case others =>
      intro i hi
      have : i ≠ me := by rintro rfl; exact hi (by rw [hpc]; rfl)
      simp [Sched.clearLive, Sys.setTask_tasks, this]
    case cores => intro d hd; simp [Sched.clearLive, Sys.setCore_cores, hd]
    case schedSp => intro sp h; exact .inl (by simpa [Sched.clearLive, Sys.setCore_cores] using h)
    all_goals simp [Sched.clearLive, Sys.setCore_cores]
  · rw [hpc]
    rintro i ⟨⟩
    exact ok.2

/-- `task_exit` marks the current task finished. -/
theorem Inv.exitWrite (inv : Inv s held) {me : Slot} (hpc : (s.cores c).pc = .exitWrite me) :
    Inv (exitWrite s c me) held := by
  have hme : held c = some me := by
    have ok := inv.pc c
    rwa [hpc] at ok
  have wasAlive := inv.held_alive c me hme (by rw [hpc]; rfl)
  obtain ⟨k, hk⟩ := Option.ne_none_iff_exists'.mp
    (inv.inst_some me (TaskState.owned_of_alive wasAlive))
  have hexec : (s.cores c).exec = some k := by
    rw [inv.exec c, hpc]
    simp [Pc.standing, hme, hk]
  have quiet : (Pc.sched .done).outgoing = (s.cores c).pc.outgoing := by rw [hpc]; rfl
  have exited : (Sched.exitWrite s c me).exited = upd s.exited k true := by
    simp [Sched.exitWrite, hexec]
  have taskMe : (Sched.exitWrite s c me).tasks me = { s.tasks me with state := .done } := upd_same
  have taskNe {i : Slot} (h : i ≠ me) : (Sched.exitWrite s c me).tasks i = s.tasks i := upd_ne h
  have coreC : (Sched.exitWrite s c me).cores c = { s.cores c with pc := .sched .done } := upd_same
  have coreNe {d : Core} (h : d ≠ c) : (Sched.exitWrite s c me).cores d = s.cores d := upd_ne h
  have task {α : Type} (f : Task → α) (hf : ∀ t : Task, f { t with state := .done } = f t)
      (i : Slot) : f ((Sched.exitWrite s c me).tasks i) = f (s.tasks i) := by
    by_cases hi : i = me
    · rw [hi, taskMe, hf]
    · rw [taskNe hi]
  have core {α : Type} (f : CoreState → α)
      (hf : f { s.cores c with pc := .sched .done } = f (s.cores c)) (d : Core) :
      f ((Sched.exitWrite s c me).cores d) = f (s.cores d) := by
    by_cases hd : d = c
    · rw [hd, coreC, hf]
    · rw [coreNe hd]
  have pid := task Task.pid fun _ => rfl
  have sp := task Task.sp fun _ => rfl
  have stackRaw := task Task.stackRaw fun _ => rfl
  have live := task Task.live fun _ => rfl
  have inst := task Task.inst fun _ => rfl
  have owned (i : Slot) :
      ((Sched.exitWrite s c me).tasks i).state.owned = (s.tasks i).state.owned := by
    by_cases hi : i = me
    · rw [hi, taskMe, TaskState.owned_of_alive wasAlive]; rfl
    · rw [taskNe hi]
  have current := core CoreState.current rfl
  have schedSp := core CoreState.schedSp rfl
  have execEq := core CoreState.exec rfl
  have outgoing := core (fun k => k.pc.outgoing) quiet
  have standing (d : Core) := core (fun k => k.pc.standing (held d)) (by rw [hpc]; rfl) d
  have reserved := core (fun k => k.pc.reserved) (by rw [hpc]; rfl)
  have pendingPid := core (fun k => k.pc.pendingPid) (by rw [hpc]; rfl)
  have pendingStack := core (fun k => k.pc.pendingStack) (by rw [hpc]; rfl)
  have releasing := core (fun k => k.pc.releasing) (by rw [hpc]; rfl)
  have exitedNe {j : Nat} {i : Slot} (hi : i ≠ me) (hj : (s.tasks i).inst = some j) :
      (Sched.exitWrite s c me).exited j = s.exited j := by
    rw [exited]
    exact upd_ne fun e => hi (inv.inst_inj i me k (e ▸ hj) hk)
  have latest_eq (o : Option Nat) : latest (Sched.exitWrite s c me) o = latest s o := rfl
  constructor
  case pid_range => simp only [pid]; exact inv.pid_range
  case pid_inj => simpa only [pid] using inv.pid_inj
  case pid_pos => simpa only [pid, owned] using inv.pid_pos
  case nextPid_pos => exact inv.nextPid_pos
  case current => simpa only [current, pid] using inv.current
  case live_iff => simpa only [live, Holds, outgoing] using inv.live_iff
  case excl => simpa only [Holds, outgoing] using inv.excl
  case outgoing_ne => simpa only [outgoing] using inv.outgoing_ne
  case exec => simpa only [execEq, standing, inst] using inv.exec
  case held_alive =>
    intro d i hd hf
    by_cases hdc : d = c
    · rw [hdc, coreC] at hf; cases hf
    · rw [coreNe hdc] at hf
      have hi : i ≠ me := by
        rintro rfl
        exact hdc (inv.excl d c i (.inl hd) (.inl hme))
      rw [taskNe hi]
      exact inv.held_alive d i hd hf
  case held_done =>
    intro d i hd hf
    by_cases hdc : d = c
    · obtain rfl : me = i := by rw [hdc, hme] at hd; exact Option.some.inj hd
      rw [taskMe]
    · rw [coreNe hdc] at hf
      have hi : i ≠ me := by
        rintro rfl
        exact hdc (inv.excl d c i (.inl hd) (.inl hme))
      rw [taskNe hi]
      exact inv.held_done d i hd hf
  case outgoing_owned => simpa only [outgoing, owned] using inv.outgoing_owned
  case schedSp => simpa only [schedSp, latest_eq] using inv.schedSp
  case pc =>
    intro d
    by_cases hd : d = c
    · rw [hd, coreC]
      exact .inr (.inr ⟨rfl, by simp [hme]⟩)
    · rw [coreNe hd]
      refine (inv.pc d).frame fun i hi => ?_
      have ne : i ≠ me := by
        rintro rfl
        obtain h | h | h := hi
        · exact hd (inv.excl d c i (.inl h) (.inl hme))
        · exact hd (inv.excl d c i (.inr h) (.inl hme))
        · exact inv.not_reserved (inv.held_owned hme) d h
      exact ⟨taskNe ne, fun j hj => ⟨rfl, exitedNe ne hj⟩⟩
  case inst_some => simpa only [owned, inst] using inv.inst_some
  case inst_lt => simp only [inst]; exact inv.inst_lt
  case inst_inj => simpa only [inst] using inv.inst_inj
  case parked =>
    intro i hi hl
    by_cases h : i = me
    · rw [h, taskMe] at hi; cases hi
    · rw [taskNe h] at hi hl ⊢; exact inv.parked i hi hl
  case alive_not_exited =>
    intro i j hi hj
    by_cases h : i = me
    · rw [h, taskMe] at hi; cases hi
    · rw [taskNe h] at hi hj
      rw [exitedNe h hj]
      exact inv.alive_not_exited i j hi hj
  case done_exited =>
    intro i j hi hj
    by_cases h : i = me
    · rw [inst, h, hk] at hj
      obtain rfl := Option.some.inj hj
      rw [exited, upd_same]
    · rw [taskNe h] at hi hj
      rw [exitedNe h hj]
      exact inv.done_exited i j hi hj
  case stackRaw => simpa only [stackRaw, inst] using inv.stackRaw
  case fresh =>
    intro j hj
    have lt := inv.exec_lt hexec
    have hj' : s.nextStack ≤ j := hj
    rw [exited, upd_ne (by omega)]
    exact inv.fresh j hj'
  case reserved_inj => simpa only [reserved] using inv.reserved_inj
  case pendingPid => simp only [pendingPid, pid]; exact inv.pendingPid
  case pendingStack =>
    intro d j hd
    simp only [pendingStack] at hd
    obtain ⟨h0, h1, h2, h3, h4⟩ := inv.pendingStack d j hd
    have : j ≠ k := fun e => h3 me (by rw [hk, e])
    simp only [pendingStack, inst, exited, upd_ne this]
    exact ⟨h0, h1, h2, h3, h4⟩
  case releasing =>
    intro d j hd
    simp only [releasing] at hd
    obtain ⟨h0, h1⟩ := inv.releasing d j hd
    have : j ≠ k := fun e => h1 c (by rw [hexec, e])
    simp only [execEq, exited, upd_ne this]
    exact ⟨h0, h1⟩
  case born =>
    intro b hb
    rw [pid, owned]
    exact inv.born b hb
  case born_inj => exact inv.born_inj

end

end RPCortex.Sched
