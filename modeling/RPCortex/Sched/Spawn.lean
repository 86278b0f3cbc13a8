import RPCortex.Sched.Frame

/-! `task_spawn`, `task_reap` and `task_kill` preserve the invariant, under the conditions on the
state in which they act that the code does not check. -/

namespace RPCortex.Sched

open Lib

/-- `y` differs from `x` in nothing that the invariant sees. -/
structure Touch (x y : Task) : Prop where
  pid : y.pid = x.pid
  state : y.state = x.state ∨ y.state.alive ∧ x.state.alive
  sp : y.sp = x.sp
  stackRaw : y.stackRaw = x.stackRaw ∨ y.stackRaw = none
  live : y.live = x.live
  inst : y.inst = x.inst

section

variable {s : Sys} {held : Core → Option Slot} {c : Core} {t : Slot}

theorem Touch.same {f : Task → Task} (h : Touch (s.tasks t) (f (s.tasks t))) :
    Same s (s.setTask t f) := by
  have at_ (i : Slot) : (s.setTask t f).tasks i = s.tasks i ∨
      i = t ∧ (s.setTask t f).tasks i = f (s.tasks t) := by
    rw [Sys.setTask_tasks]
    split
    · exact .inr ⟨‹_›, rfl⟩
    · exact .inl rfl
  constructor
  case pid => intro i; obtain e | ⟨rfl, e⟩ := at_ i <;> rw [e]; exact h.pid
  case state =>
    intro i
    obtain e | ⟨rfl, e⟩ := at_ i <;> rw [e]
    · exact .inl rfl
    · exact h.state
  case sp => intro i; obtain e | ⟨rfl, e⟩ := at_ i <;> rw [e]; exact h.sp
  case stackRaw =>
    intro i
    obtain e | ⟨rfl, e⟩ := at_ i <;> rw [e]
    · exact .inl rfl
    · exact h.stackRaw
  case live => intro i; obtain e | ⟨rfl, e⟩ := at_ i <;> rw [e]; exact h.live
  case inst => intro i; obtain e | ⟨rfl, e⟩ := at_ i <;> rw [e]; exact h.inst
  all_goals simp

theorem Inv.touch (inv : Inv s held) {f : Task → Task} (h : Touch (s.tasks t) (f (s.tasks t))) :
    Inv (s.setTask t f) held := inv.same h.same

/-- A core writes nothing that the invariant sees and moves on. -/
theorem Inv.touch_goto (inv : Inv s held) {f : Task → Task} {pc' : Pc}
    (h : Touch (s.tasks t) (f (s.tasks t))) (q : Quiet (s.cores c).pc pc')
    (pid : ∀ p, pc'.pendingPid = some p → (s.cores c).pc.pendingPid = some p)
    (stack : ∀ k, pc'.pendingStack = some k → (s.cores c).pc.pendingStack = some k)
    (ok : pc'.Ok s (held c)) (rel : ∀ k, pc'.releasing = some k → Dead s k) :
    Inv ((s.setTask t f).goto c pc') held :=
  (inv.touch h).goto q pid stack (h.same.ok ok) rel

theorem Inv.idle_of_not_owned (inv : Inv s held) (h : (s.tasks t).state.owned = false) (d : Core) :
    ¬Holds s held d t := by
  intro hd
  simp [inv.owned_of_holds hd] at h

theorem Inv.live_of_idle (inv : Inv s held) (h : ∀ d, ¬Holds s held d t) :
    (s.tasks t).live = false := by
  cases hl : (s.tasks t).live with
  | false => rfl
  | true =>
    obtain ⟨d, hd⟩ := (inv.live_iff t).mp hl
    exact absurd hd (h d)

/-- A slot that keeps its pid and its context and belongs to no published task. -/
theorem Inv.fits_unowned (inv : Inv s held) {x : Task}
    (pid : x.pid = (s.tasks t).pid) (inst : x.inst = (s.tasks t).inst)
    (state : x.state.owned = false) (live : x.live = false)
    (stackRaw : x.stackRaw = (s.tasks t).stackRaw ∨ x.stackRaw = none) : Fits s c t x := by
  have unowned : ¬x.state.owned = true := by simp [state]
  have unalive : ¬x.state.alive = true := fun h => unowned (TaskState.owned_of_alive h)
  have undone : ¬x.state = .done := fun h => unowned (TaskState.owned_iff.mpr (.inr h))
  constructor
  case live => exact live
  case pid_nonneg => rw [pid]; exact (inv.pid_range t).1
  case pid_lt => rw [pid]; exact (inv.pid_range t).2
  case pid_inj =>
    intro pos i hi h
    rw [pid] at pos h
    exact hi (inv.pid_inj i t h (h ▸ pos))
  case pid_pending =>
    intro d _ h
    exact (inv.pendingPid d _ h).2.2.1 t pid.symm
  case pid_pos => exact fun h => absurd h unowned
  case inst_some => exact fun h => absurd h unowned
  case inst_lt => intro k h; exact inv.inst_lt t k (inst ▸ h)
  case inst_inj => intro k h i hi h'; exact hi (inv.inst_inj i t k h' (inst ▸ h))
  case inst_pending => intro k h d _ h'; exact (inv.pendingStack d k h').2.2.2.1 t (inst ▸ h)
  case parked => exact fun h => absurd h unalive
  case alive_not_exited => exact fun k h => absurd h unalive
  case done_exited => exact fun k h => absurd h undone
  case stackRaw =>
    intro k h
    obtain e | e := stackRaw
    · rw [inst]; exact inv.stackRaw t k (e ▸ h)
    · rw [e] at h; cases h

theorem Inv.born_unowned (inv : Inv s held) (h : (s.tasks t).state.owned = false) {b : Born}
    (hb : b ∈ s.born) : b.slot ≠ t := by
  intro e
  have := (inv.born b hb).2
  rw [e, h] at this
  cases this

theorem bornExcept_mem {b : Born} (h : b ∈ bornExcept s t) : b.slot ≠ t ∧ b ∈ s.born := by
  simpa [bornExcept, and_comm] using h

theorem Inv.bornExcept_inj (inv : Inv s held) :
    (bornExcept s t).Pairwise fun a b => a.slot ≠ b.slot := inv.born_inj.filter _

/-- A slot that belongs to nobody has no published task to forget. -/
theorem Inv.bornExcept_of_not_owned (inv : Inv s held) (h : (s.tasks t).state.owned = false) :
    bornExcept s t = s.born :=
  List.filter_eq_self.mpr fun _ hb => by simpa using inv.born_unowned h hb

end

section Spawn

variable {s s' : Sys} {held : Core → Option Slot} {c : Core} {pc p' : SpawnPc} {l : Spawning}

theorem Filling.mono (f : Filling s pc l) (z : p'.zeroed = pc.zeroed)
    (n : p'.numbered → pc.numbered) (k : p'.stacked → pc.stacked) (hp : p' ≠ .publish) :
    Filling s p' l :=
  ⟨by rw [f.state, z], fun h => f.pid (n h), fun h => f.inst (k h), fun h => absurd h hp⟩

theorem Inv.filling (inv : Inv s held) (hpc : (s.cores c).pc = .spawn pc l) (h : pc ≠ .report) :
    Filling s pc l := by
  have ok := inv.pc c
  rw [hpc] at ok
  cases pc <;> first | exact absurd rfl h | exact ok

theorem Filling.not_owned (f : Filling s pc l) : (s.tasks l.slot).state.owned = false := by
  rw [f.state]
  split <;> rfl

theorem Inv.mine (inv : Inv s held) (hpc : (s.cores c).pc = .spawn pc l) (h : pc ≠ .report) :
    Mine s held c l.slot := by
  refine ⟨inv.idle_of_not_owned (inv.filling hpc h).not_owned, fun d hd hres => hd ?_⟩
  refine inv.reserved_inj d c l.slot hres ?_
  rw [hpc]
  cases pc <;> first | exact absurd rfl h | rfl

/-- A step of the fill writes the slot without publishing it. -/
theorem Inv.fill (inv : Inv s held) (hpc : (s.cores c).pc = .spawn pc l) (h : pc ≠ .report)
    {x : Task} {pc' : Pc} (fits : Fits s c l.slot x) (next : Next s c l.slot x pc')
    (ok : pc'.Ok (s.putTask c l.slot x pc' s.born) (held c)) :
    Inv (s.putTask c l.slot x pc' s.born) held := by
  refine inv.putTask (inv.mine hpc h) fits next ok (fun b hb => .inl ?_) inv.born_inj
  exact ⟨inv.born_unowned (inv.filling hpc h).not_owned hb, hb⟩

/-- A step of the fill that leaves the pid and the context as they are. -/
theorem Inv.fill_unowned (inv : Inv s held) (hpc : (s.cores c).pc = .spawn pc l)
    (h : pc ≠ .report) {x : Task} {pc' : Pc} (settled' : Settled pc')
    (pid : x.pid = (s.tasks l.slot).pid) (inst : x.inst = (s.tasks l.slot).inst)
    (state : x.state.owned = false) (live : x.live = (s.tasks l.slot).live)
    (stackRaw : x.stackRaw = (s.tasks l.slot).stackRaw)
    (reserved : ∀ i, pc'.reserved = some i → i = l.slot) (pendingPid : pc'.pendingPid = none)
    (pendingStack : ∀ k, pc'.pendingStack = some k → (s.cores c).pc.pendingStack = some k)
    (releasing : pc'.releasing = none)
    (ok : pc'.Ok (s.putTask c l.slot x pc' s.born) (held c)) :
    Inv (s.putTask c l.slot x pc' s.born) held := by
  have dead := inv.live_of_idle (inv.mine hpc h).idle
  refine inv.fill hpc h (inv.fits_unowned pid inst state (live.trans dead) (.inl stackRaw))
    ⟨hpc ▸ .spawn pc l, settled', reserved, ?_, fun k hk => ?_, ?_⟩ ok
  · simp [pendingPid]
  · refine ⟨pendingStack k hk, ?_⟩
    rw [inst]
    exact (inv.pendingStack c k (pendingStack k hk)).2.2.2.1 _
  · simp [releasing]

/-- A step of the fill that the invariant does not see. -/
theorem Inv.fill_touch (inv : Inv s held) (hpc : (s.cores c).pc = .spawn pc l) (h : pc ≠ .report)
    {f : Task → Task} (touch : Touch (s.tasks l.slot) (f (s.tasks l.slot)))
    (z : p'.zeroed = pc.zeroed) (n : p'.numbered → pc.numbered) (k : p'.stacked → pc.stacked)
    (hp : p' ≠ .publish) (hr : p' ≠ .report)
    (pendingPid : (Pc.spawn p' l).pendingPid = none)
    (pendingStack : ∀ k, (Pc.spawn p' l).pendingStack = some k →
      (Pc.spawn pc l).pendingStack = some k)
    (releasing : (Pc.spawn p' l).releasing = none) :
    Inv ((s.setTask l.slot f).goto c (.spawn p' l)) held := by
  have next : (Pc.spawn p' l).Ok s (held c) := by
    have := (inv.filling hpc h).mono z n k hp
    cases p' <;> first | exact absurd rfl hr | exact this
  have reserved : (Pc.spawn pc l).reserved = some l.slot := by
    cases pc <;> first | exact absurd rfl h | rfl
  have reserved' : (Pc.spawn p' l).reserved = some l.slot := by
    cases p' <;> first | exact absurd rfl hr | rfl
  refine inv.touch_goto touch ?_ (by simp [pendingPid]) (by simpa [hpc] using pendingStack) next
    (by simp [releasing])
  rw [hpc]
  exact .of_settled (.spawn pc l) (.spawn p' l) (by simp [reserved, reserved'])

/-- A slot that keeps its state apart is filled with its new pid. -/
theorem Inv.setPid (inv : Inv s held) (hpc : (s.cores c).pc = .spawn .setPid l) :
    Inv (s.putTask c l.slot { s.tasks l.slot with pid := l.pid } (.spawn .setAffinity l) s.born)
      held := by
  have f := inv.filling hpc (by decide)
  have mine := inv.mine hpc (by decide)
  have live := inv.live_of_idle mine.idle
  have base : Fits s c l.slot (s.tasks l.slot) :=
    inv.fits_unowned rfl rfl f.not_owned live (.inl rfl)
  obtain ⟨pos, lt, unused, mineOnly⟩ := inv.pendingPid c l.pid (by rw [hpc]; rfl)
  refine inv.fill hpc (by decide) { base with
      pid_nonneg := pos.le
      pid_lt := lt
      pid_inj := fun _ i _ => unused i
      pid_pending := fun d hd h => hd (mineOnly d h)
      pid_pos := fun _ => pos }
    ⟨hpc ▸ .spawn _ l, .spawn _ l, ?_, by simp [Pc.pendingPid], fun k hk => ?_,
      by simp [Pc.releasing]⟩ ?_
  · rintro i ⟨⟩; rfl
  · have hk' : (s.cores c).pc.pendingStack = some k := by rw [hpc]; exact hk
    exact ⟨hk', (inv.pendingStack c k hk').2.2.2.1 _⟩
  · constructor
    · simp [Sys.putTask, Sys.setTask_tasks, f.state, SpawnPc.zeroed]
    · simp [Sys.putTask, Sys.setTask_tasks, pos]
    · simp [SpawnPc.stacked]
    · simp

/-- The slot is given its new stack. -/
theorem Inv.setStack (inv : Inv s held) (hpc : (s.cores c).pc = .spawn .setStack l) :
    Inv (s.putTask c l.slot
      { s.tasks l.slot with stackRaw := some l.stack, inst := some l.stack } (.spawn .setLive l)
      s.born) held := by
  have f := inv.filling hpc (by decide)
  have mine := inv.mine hpc (by decide)
  have live := inv.live_of_idle mine.idle
  have base : Fits s c l.slot (s.tasks l.slot) :=
    inv.fits_unowned rfl rfl f.not_owned live (.inl rfl)
  have unalive : (s.tasks l.slot).state.alive = false := by
    rw [f.state]; rfl
  have undone : (s.tasks l.slot).state ≠ .done := by
    rw [f.state]; decide
  obtain ⟨lt, running, parks, unused, mineOnly⟩ := inv.pendingStack c l.stack (by rw [hpc]; rfl)
  refine inv.fill hpc (by decide) { base with
      inst_some := by simp
      inst_lt := by rintro k ⟨⟩; exact lt
      inst_inj := by rintro k ⟨⟩ i _; exact unused i
      inst_pending := by rintro k ⟨⟩ d hd h; exact hd (mineOnly d h)
      parked := fun h => absurd h (by simp [unalive])
      alive_not_exited := fun k h => absurd h (by simp [unalive])
      done_exited := fun k h => absurd h undone
      stackRaw := fun k h => h }
    ⟨hpc ▸ .spawn _ l, .spawn _ l, ?_, by simp [Pc.pendingPid], by simp [Pc.pendingStack],
      by simp [Pc.releasing]⟩ ?_
  · rintro i ⟨⟩; rfl
  · constructor
    · simp [Sys.putTask, Sys.setTask_tasks, f.state, SpawnPc.zeroed]
    · simpa [Sys.putTask, Sys.setTask_tasks, SpawnPc.numbered] using f.pid
    · simp [Sys.putTask, Sys.setTask_tasks, running, parks]
    · simp

/-- The filled slot is published. -/
theorem Inv.publish (inv : Inv s held) (hpc : (s.cores c).pc = .spawn .publish l) :
    Inv (s.putTask c l.slot { s.tasks l.slot with state := .ready } (.spawn .report l)
      (⟨l.slot, l.pid⟩ :: s.born)) held := by
  have f := inv.filling hpc (by decide)
  have mine := inv.mine hpc (by decide)
  have live := inv.live_of_idle mine.idle
  have base : Fits s c l.slot (s.tasks l.slot) :=
    inv.fits_unowned rfl rfl f.not_owned live (.inl rfl)
  obtain ⟨hpid, pos⟩ := f.pid rfl
  obtain ⟨inst, running, parks⟩ := f.inst rfl
  refine inv.putTask mine { base with
      pid_pos := fun _ => by simpa [hpid] using pos
      inst_some := fun _ => by simp [inst]
      parked := fun _ => by simp [inst, f.sp rfl, latest, parks]
      alive_not_exited := fun k _ h => by
        obtain rfl : l.stack = k := by simpa [inst] using h
        exact running
      done_exited := fun k h => absurd h (by simp) }
    ⟨hpc ▸ .spawn _ l, .spawn _ l, by simp [Pc.reserved], by simp [Pc.pendingPid],
      by simp [Pc.pendingStack], by simp [Pc.releasing]⟩ trivial ?_ ?_
  · intro b hb
    obtain rfl | hb := List.mem_cons.mp hb
    · exact .inr ⟨rfl, hpid, rfl⟩
    · exact .inl ⟨inv.born_unowned f.not_owned hb, hb⟩
  · refine List.pairwise_cons.mpr ⟨fun b hb => ?_, inv.born_inj⟩
    exact (inv.born_unowned f.not_owned hb).symm

/-- The slot's old pid is cleared. -/
theorem Inv.zeroPid (inv : Inv s held) (hpc : (s.cores c).pc = .spawn .zeroPid l) :
    Inv (s.putTask c l.slot { s.tasks l.slot with pid := 0 } (.spawn .zeroState l) s.born)
      held := by
  have f := inv.filling hpc (by decide)
  have mine := inv.mine hpc (by decide)
  have live := inv.live_of_idle mine.idle
  have base : Fits s c l.slot (s.tasks l.slot) :=
    inv.fits_unowned rfl rfl f.not_owned live (.inl rfl)
  refine inv.fill hpc (by decide) { base with
      pid_nonneg := le_rfl
      pid_lt := inv.nextPid_pos
      pid_inj := fun h => absurd h (lt_irrefl _)
      pid_pending := fun d _ h => lt_irrefl _ (inv.pendingPid d 0 h).1
      pid_pos := fun h => absurd h (by simp [f.not_owned]) }
    ⟨hpc ▸ .spawn _ l, .spawn _ l, ?_, by simp [Pc.pendingPid], fun k hk => ?_,
      by simp [Pc.releasing]⟩ ?_
  · rintro i ⟨⟩; rfl
  · have hk' : (s.cores c).pc.pendingStack = some k := by rw [hpc]; exact hk
    exact ⟨hk', (inv.pendingStack c k hk').2.2.2.1 _⟩
  · constructor
    · simpa [Sys.putTask, Sys.setTask_tasks, SpawnPc.zeroed] using f.state
    · simp [SpawnPc.numbered]
    · simp [SpawnPc.stacked]
    · simp

theorem incInt_of_lt {x : Int} (h0 : 0 ≤ x) (h : x < 0x7fffffff) : incInt x = x + 1 := by
  unfold incInt
  rw [Int.bmod_eq_of_le] <;> omega

/-- `task_spawn` outside the guard, `malloc` apart. -/
theorem Inv.spawnStep (inv : Inv s held) (hpc : (s.cores c).pc = .spawn pc l)
    (orderly : pc = .storePid → s.nextPid = l.pid ∧ l.pid < 0x7fffffff)
    (h : spawnStep s c l pc = some s') : Inv s' held := by
  have dead : (s.tasks l.slot).live = false ∨ pc = .report := by
    by_cases hr : pc = .report
    · exact .inr hr
    · exact .inl (inv.live_of_idle (inv.mine hpc hr).idle)
  cases pc with
  | release k =>
    obtain rfl := Option.some.inj h
    have f := inv.filling hpc (by simp)
    refine inv.goto ?_ (by simp [Pc.pendingPid]) (by simp [Pc.pendingStack])
      (f.mono rfl (by simp [SpawnPc.numbered]) (by simp [SpawnPc.stacked]) (by simp))
      (by simp [Pc.releasing])
    rw [hpc]
    exact .of_settled (.spawn _ l) (.spawn _ l) (by simp [Pc.reserved])
  | alloc => cases h
  | abandon =>
    obtain rfl := Option.some.inj h
    exact inv.fill_unowned hpc (by decide) .user rfl rfl rfl rfl rfl (by simp [Pc.reserved]) rfl
      (by simp [Pc.pendingStack]) rfl trivial
  | zeroPid => exact Option.some.inj h ▸ inv.zeroPid hpc
  | zeroState =>
    obtain rfl := Option.some.inj h
    refine inv.fill_unowned hpc (by decide) (.spawn _ l) rfl rfl rfl rfl rfl ?_ rfl ?_ rfl ?_
    · rintro i ⟨⟩; rfl
    · rw [hpc]; exact fun k hk => hk
    · constructor
      · simp [Sys.putTask, Sys.setTask_tasks, SpawnPc.zeroed]
      · simp [SpawnPc.numbered]
      · simp [SpawnPc.stacked]
      · simp
  | zeroAffinity =>
    obtain rfl := Option.some.inj h
    exact inv.fill_touch hpc (by decide) ⟨rfl, .inl rfl, rfl, .inl rfl, rfl, rfl⟩ rfl
      (by decide) (by decide) (by decide) (by decide) rfl (fun _ h => h) rfl
  | zeroKill =>
    obtain rfl := Option.some.inj h
    exact inv.fill_touch hpc (by decide) ⟨rfl, .inl rfl, rfl, .inl rfl, rfl, rfl⟩ rfl
      (by decide) (by decide) (by decide) (by decide) rfl (fun _ h => h) rfl
  | fetchPid =>
    obtain rfl := Option.some.inj h
    have f := inv.filling hpc (by decide)
    refine inv.goto ?_ (by simp [Pc.pendingPid]) (by rw [hpc]; exact fun k hk => hk)
      ⟨f.state, by simp [SpawnPc.numbered], by simp [SpawnPc.stacked], by simp⟩
      (by simp [Pc.releasing])
    rw [hpc]
    exact .of_settled (.spawn _ l) (.spawn _ _) (by simp [Pc.reserved])
  | storePid =>
    obtain rfl := Option.some.inj h
    obtain ⟨hnext, hlt⟩ := orderly rfl
    have pos := inv.nextPid_pos
    have f := inv.filling hpc (by decide)
    rw [incInt_of_lt (by omega) hlt]
    refine inv.advance (l.pid + 1) s.nextStack ?_ (by omega) le_rfl ?_ ?_
      (f.mono rfl (by decide) (by decide) (by decide)) (by simp [Pc.releasing])
    · rw [hpc]
      exact .of_settled (.spawn _ l) (.spawn _ l) (by simp [Pc.reserved])
    · rintro p ⟨⟩
      exact .inr ⟨by omega, by omega⟩
    · rw [hpc]
      exact fun k hk => .inl hk
  | setPid => exact Option.some.inj h ▸ inv.setPid hpc
  | setAffinity =>
    obtain rfl := Option.some.inj h
    exact inv.fill_touch hpc (by decide) ⟨rfl, .inl rfl, rfl, .inl rfl, rfl, rfl⟩ rfl
      (by decide) (by decide) (by decide) (by decide) rfl (fun _ h => h) rfl
  | setStack => exact Option.some.inj h ▸ inv.setStack hpc
  | setLive =>
    obtain rfl := Option.some.inj h
    have live := dead.resolve_right (by decide)
    exact inv.fill_touch hpc (by decide) ⟨rfl, .inl rfl, rfl, .inl rfl, live.symm, rfl⟩ rfl
      (by decide) (by decide) (by decide) (by decide) rfl (by simp [Pc.pendingStack]) rfl
  | setSp =>
    obtain rfl := Option.some.inj h
    have f := inv.filling hpc (by decide)
    refine inv.fill_unowned hpc (by decide) (.spawn _ l) rfl rfl f.not_owned rfl rfl ?_ rfl
      (by simp [Pc.pendingStack]) rfl ?_
    · rintro i ⟨⟩; rfl
    · constructor
      · simpa [Sys.putTask, Sys.setTask_tasks, SpawnPc.zeroed] using f.state
      · simpa [Sys.putTask, Sys.setTask_tasks, SpawnPc.numbered] using f.pid
      · simpa [Sys.putTask, Sys.setTask_tasks, SpawnPc.stacked] using f.inst
      · simp [Sys.putTask, Sys.setTask_tasks]
  | publish => exact Option.some.inj h ▸ inv.publish hpc
  | report =>
    obtain rfl := Option.some.inj h
    exact inv.goto_plain (by rw [hpc]; rfl) rfl trivial (by simp [Pc.releasing])

/-- `malloc` answers. -/
theorem Inv.mallocStep (inv : Inv s held) (hpc : (s.cores c).pc = .spawn .alloc l) (ok : Bool) :
    Inv (mallocStep s c l ok) held := by
  have f := inv.filling hpc (by decide)
  unfold Sched.mallocStep
  split
  · refine inv.advance s.nextPid (s.nextStack + 1) ?_ le_rfl (by omega)
      (by simp [Pc.pendingPid]) ?_
      ⟨f.state, by simp [SpawnPc.numbered], by simp [SpawnPc.stacked], by simp⟩
      (by simp [Pc.releasing])
    · rw [hpc]
      exact .of_settled (.spawn _ l) (.spawn _ _) (by simp [Pc.reserved])
    · rintro k ⟨⟩
      exact .inr ⟨le_rfl, Nat.lt_succ_self _⟩
  · refine inv.goto ?_ (by simp [Pc.pendingPid]) (by simp [Pc.pendingStack])
      (f.mono rfl (by decide) (by decide) (by decide)) (by simp [Pc.releasing])
    rw [hpc]
    exact .of_settled (.spawn _ l) (.spawn _ l) (by simp [Pc.reserved])

end Spawn

section Guarded

variable {s : Sys} {held : Core → Option Slot} {c : Core} {t : Slot}

/-- A finished task that every core has left is on no core. -/
theorem Inv.idle_of_left (inv : Inv s held) (h : Left s t) (d : Core) : ¬Holds s held d t := by
  obtain ⟨hdone, hleft⟩ := h
  intro hd
  refine hleft d ?_
  have ok := inv.pc d
  unfold Leaving
  obtain hheld | hout := hd
  · have fin : (s.cores d).pc.finishing = true := by
      by_contra hf
      have := inv.held_alive d t hheld (by simpa using hf)
      simp [hdone, TaskState.alive] at this
    cases hpc : (s.cores d).pc with
    | sched p => cases p <;> simp_all [Pc.finishing, Pc.leaving, inv.cur_eq]
    | doneWait me =>
      rw [hpc] at ok
      exact Eq.trans (Eq.symm ok) hheld
    | _ => simp [hpc, Pc.finishing] at fin
  · cases hpc : (s.cores d).pc <;> simp_all [Pc.outgoing, Pc.leaving]

/-- The context of a finished task that every core has left is dead. -/
theorem Inv.dead_of_left (inv : Inv s held) (h : Left s t) {k : Nat}
    (hk : (s.tasks t).inst = some k) : Dead s k := by
  refine ⟨inv.done_exited t k h.1 hk, fun d hd => ?_⟩
  rw [inv.exec d] at hd
  cases hs : (s.cores d).pc.standing (held d) with
  | none => simp [hs] at hd
  | some i =>
    rw [hs] at hd
    have : i = t := inv.inst_inj i t k hd hk
    exact inv.idle_of_left h d (this ▸ standing_holds hs)

theorem not_owned_of_free (h : (s.tasks t).state = .free) :
    (s.tasks t).state.owned = false := by rw [h]; rfl

/-- No core fills the slot of a published task. -/
theorem Inv.not_reserved (inv : Inv s held) (h : (s.tasks t).state.owned) (d : Core) :
    (s.cores d).pc.reserved ≠ some t := by
  intro hres
  cases hpc : (s.cores d).pc with
  | spawn p l =>
    have hp : p ≠ .report := by rintro rfl; simp [hpc, Pc.reserved] at hres
    have hl : l.slot = t := by
      rw [hpc] at hres
      cases p <;> simp_all [Pc.reserved]
    have := (inv.filling hpc hp).not_owned
    rw [hl, h] at this
    cases this
  | _ => simp [hpc, Pc.reserved] at hres

theorem owned_of_left (h : Left s t) : (s.tasks t).state.owned :=
  TaskState.owned_iff.mpr (.inr h.1)

/-- A slot that nobody is on leaves its task, for a new one or for none. -/
theorem Inv.retire (inv : Inv s held) {x : Task} {pc' : Pc} (mine : Mine s held c t)
    (settled : Settled (s.cores c).pc) (settled' : Settled pc')
    (pid : x.pid = (s.tasks t).pid) (inst : x.inst = (s.tasks t).inst)
    (state : x.state.owned = false) (live : x.live = false)
    (stackRaw : x.stackRaw = (s.tasks t).stackRaw ∨ x.stackRaw = none)
    (reserved : ∀ i, pc'.reserved = some i → i = t) (pendingPid : pc'.pendingPid = none)
    (pendingStack : pc'.pendingStack = none) (releasing : ∀ k, pc'.releasing = some k → Dead s k)
    (ok : pc'.Ok (s.putTask c t x pc' (bornExcept s t)) (held c)) :
    Inv (s.putTask c t x pc' (bornExcept s t)) held :=
  inv.putTask mine (inv.fits_unowned pid inst state live stackRaw)
    ⟨settled, settled', reserved, by simp [pendingPid], by simp [pendingStack], releasing⟩ ok
    (fun _ hb => .inl (bornExcept_mem hb)) inv.bornExcept_inj

/-- `task_spawn`'s guard section. -/
theorem Inv.reserve (inv : Inv s held) {affinity : TaskAffinity}
    (hpc : (s.cores c).pc = .reserve affinity)
    (free : ∀ t, freeSlot s = some t → ∀ d, (s.cores d).pc.reserved ≠ some t)
    (done : freeSlot s = none → ∀ t, oldestDone s = some t → Left s t) :
    Inv (reserve s c affinity) held := by
  unfold Sched.reserve
  cases hfree : freeSlot s with
  | some t =>
    have hst := not_owned_of_free (freeSlot_some hfree)
    have mine : Mine s held c t := ⟨inv.idle_of_not_owned hst, fun d _ => free t hfree d⟩
    suffices h : Inv (s.putTask c t { s.tasks t with state := .blocked }
        (.spawn .alloc ⟨affinity, t, 0, 0⟩) (bornExcept s t)) held by
      rw [inv.bornExcept_of_not_owned hst] at h
      exact h
    refine inv.retire mine (hpc ▸ .reserve affinity) (.spawn _ _) rfl rfl rfl
      (inv.live_of_idle mine.idle) (.inl rfl) (by rintro i ⟨⟩; rfl) rfl rfl
      (by simp [Pc.releasing]) ?_
    constructor <;> simp [Sys.putTask, Sys.setTask_tasks, SpawnPc.zeroed, SpawnPc.numbered,
      SpawnPc.stacked]
  | none =>
    cases hdone : oldestDone s with
    | none => exact inv.goto_plain (by rw [hpc]; rfl) rfl trivial (by simp [Pc.releasing])
    | some t =>
      have left := done hfree t hdone
      have mine : Mine s held c t :=
        ⟨inv.idle_of_left left, fun d _ => inv.not_reserved (owned_of_left left) d⟩
      cases hstack : (s.tasks t).stackRaw with
      | none =>
        simp only [hstack]
        refine inv.retire mine (hpc ▸ .reserve affinity) (.spawn _ _) rfl rfl rfl rfl (.inr rfl)
          (by rintro i ⟨⟩; rfl) rfl rfl (by simp [Pc.releasing]) ?_
        constructor <;> simp [Sys.putTask, Sys.setTask_tasks, SpawnPc.zeroed, SpawnPc.numbered,
          SpawnPc.stacked]
      | some k =>
        simp only [hstack]
        refine inv.retire mine (hpc ▸ .reserve affinity) (.spawn _ _) rfl rfl rfl rfl (.inr rfl)
          (by rintro i ⟨⟩; rfl) rfl rfl ?_ ?_
        · rintro k' ⟨⟩
          exact inv.dead_of_left left (inv.stackRaw t k hstack)
        · constructor <;> simp [Sys.putTask, Sys.setTask_tasks, SpawnPc.zeroed, SpawnPc.numbered,
            SpawnPc.stacked]

/-- `task_reap` after its lookup. -/
theorem Inv.reapStep (inv : Inv s held) {pc : ReapPc} (hpc : (s.cores c).pc = .reap pc t)
    (take : pc = .takeStack → Left s t)
    (free : pc = .free → (s.tasks t).state = .free ∨ Left s t) :
    Inv (reapStep s c t pc) held := by
  have plain : (s.cores c).pc.plain := by rw [hpc]; rfl
  have quiet (p : ReapPc) : Quiet (s.cores c).pc (.reap p t) := .of_plain plain rfl
  cases pc with
  | finished =>
    simp only [Sched.reapStep]
    split
    · exact inv.goto_plain plain rfl trivial (by simp [Pc.releasing])
    · exact inv.goto_plain plain rfl trivial (by simp [Pc.releasing])
  | takeStack =>
    simp only [Sched.reapStep]
    split
    · rename_i k hk
      refine inv.goto_plain plain rfl trivial ?_
      rintro k' ⟨⟩
      exact inv.dead_of_left (take rfl) (inv.stackRaw t k hk)
    · exact inv.goto_plain plain rfl trivial (by simp [Pc.releasing])
  | release k => exact inv.goto_plain plain rfl trivial (by simp [Pc.releasing])
  | dropStack =>
    exact inv.touch_goto ⟨rfl, .inl rfl, rfl, .inr rfl, rfl, rfl⟩ (quiet .free)
      (by simp [Pc.pendingPid]) (by simp [Pc.pendingStack]) trivial (by simp [Pc.releasing])
  | free =>
    obtain hfree | left := free rfl
    · have hst := not_owned_of_free hfree
      simp only [Sched.reapStep, inv.bornExcept_of_not_owned hst]
      show Inv ((s.setTask t fun k => { k with state := .free }).goto c .user) held
      exact inv.touch_goto ⟨rfl, .inl hfree.symm, rfl, .inl rfl, rfl, rfl⟩ (.of_plain plain rfl)
        (by simp [Pc.pendingPid]) (by simp [Pc.pendingStack]) trivial (by simp [Pc.releasing])
    · have mine : Mine s held c t :=
        ⟨inv.idle_of_left left, fun d _ => inv.not_reserved (owned_of_left left) d⟩
      exact inv.retire mine (hpc ▸ .reap _ _) .user rfl rfl rfl (inv.live_of_idle mine.idle)
        (.inl rfl) (by simp [Pc.reserved]) rfl rfl (by simp [Pc.releasing]) trivial

/-- `task_kill` after its lookup. -/
theorem Inv.killStep (inv : Inv s held) {pc : KillPc} {now : BitVec 32}
    (hpc : (s.cores c).pc = .kill pc t) (ready : pc = .ready → (s.tasks t).state.alive) :
    Inv (killStep s c t now pc) held := by
  have plain : (s.cores c).pc.plain := by rw [hpc]; rfl
  have move {pc' : Pc} (h : pc' = .user ∨ ∃ p, pc' = .kill p t) : Inv (s.goto c pc') held := by
    obtain rfl | ⟨p, rfl⟩ := h
    · exact inv.goto_plain plain rfl trivial (by simp [Pc.releasing])
    · exact inv.goto_plain plain rfl trivial (by simp [Pc.releasing])
  cases pc with
  | idle => exact move (by split <;> simp)
  | shell => exact move (by split <;> simp)
  | finished => exact move (by split <;> simp)
  | asleep => exact move (by split <;> simp)
  | request =>
    exact inv.touch_goto ⟨rfl, .inl rfl, rfl, .inl rfl, rfl, rfl⟩ (.of_plain plain rfl)
      (by simp [Pc.pendingPid]) (by simp [Pc.pendingStack]) trivial (by simp [Pc.releasing])
  | wake =>
    exact inv.touch_goto ⟨rfl, .inl rfl, rfl, .inl rfl, rfl, rfl⟩ (.of_plain plain rfl)
      (by simp [Pc.pendingPid]) (by simp [Pc.pendingStack]) trivial (by simp [Pc.releasing])
  | ready =>
    exact inv.touch_goto ⟨rfl, .inr ⟨rfl, ready rfl⟩, rfl, .inl rfl, rfl, rfl⟩
      (.of_plain plain rfl) (by simp [Pc.pendingPid]) (by simp [Pc.pendingStack]) trivial
      (by simp [Pc.releasing])

end Guarded

end RPCortex.Sched
