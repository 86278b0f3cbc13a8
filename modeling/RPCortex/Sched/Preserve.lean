import RPCortex.Sched.Switch

/-! Every orderly move preserves the invariant, so it holds in every state that an orderly run from
a well-formed start reaches. -/

namespace RPCortex.Sched

open Lib

section

variable {s s' : Sys} {held : Core → Option Slot} {c : Core}

/-- Changing one of the live states of a task into another. -/
theorem Inv.touch_alive (inv : Inv s held) {t : Slot} {st : TaskState}
    (h : (s.tasks t).state.alive) (hst : st.alive) :
    Inv (s.setTask t fun t => { t with state := st }) held :=
  inv.touch ⟨rfl, .inr ⟨hst, h⟩, rfl, .inl rfl, rfl, rfl⟩

@[simp] theorem remember_pc (d : Core) : ((remember s c).cores d).pc = (s.cores d).pc := by
  unfold remember
  split
  · rfl
  · rw [Sys.setCore_cores]
    split
    · subst d; rfl
    · rfl

@[simp] theorem parkMe_cores (me : Option Slot) (parkAs : TaskState) :
    (parkMe s me parkAs).cores = s.cores := by
  cases me <;> rfl

theorem Inv.parkMe (inv : Inv s held) {parkAs : TaskState} (hpc : (s.cores c).pc = .sched parkAs) :
    Inv (parkMe s (held c) parkAs) held := by
  have ok := inv.pc c
  rw [hpc] at ok
  cases hheld : held c with
  | none => exact inv
  | some m =>
    refine inv.touch ?_
    split
    · rename_i hrun
      have alive : parkAs.alive := by
        obtain rfl | rfl | ⟨rfl, -⟩ := ok
        · rfl
        · rfl
        · have := inv.held_done c m hheld (by rw [hpc]; rfl)
          rw [this] at hrun
          cases hrun
      exact ⟨rfl, .inr ⟨alive, by rw [hrun]; rfl⟩, rfl, .inl rfl, rfl, rfl⟩
    · exact ⟨rfl, .inl rfl, rfl, .inl rfl, rfl, rfl⟩

/-- `reschedule`'s guard section when nothing is runnable. -/
theorem Inv.nothingElse (inv : Inv s held) {parkAs : TaskState}
    (hpc : (s.cores c).pc = .sched parkAs) :
    ∃ held', Inv (nothingElse s c (held c)) held' := by
  have ok := inv.pc c
  rw [hpc] at ok
  have plain (h : parkAs ≠ .done) : (s.cores c).pc.plain := by
    rw [hpc]
    obtain rfl | rfl | ⟨rfl, -⟩ := ok
    · rfl
    · rfl
    · exact absurd rfl h
  cases hheld : held c with
  | none =>
    refine ⟨held, inv.goto_plain (plain ?_) rfl trivial (by simp [Pc.releasing])⟩
    rintro rfl
    simp_all [Pc.Ok]
  | some me =>
    have running (h : (s.tasks me).state ≠ .done) : parkAs ≠ .done := by
      rintro rfl
      exact h (inv.held_done c me hheld (by rw [hpc]; rfl))
    simp only [Sched.nothingElse]
    split
    · rename_i hst
      refine ⟨held, Inv.goto_plain (inv.touch_alive ?_ rfl) (plain (running ?_)) rfl trivial
        (by simp [Pc.releasing])⟩
      · rw [hst]; rfl
      · rw [hst]; decide
    · rename_i hst
      refine ⟨held, inv.goto_plain (plain (running ?_)) rfl hheld (by simp [Pc.releasing])⟩
      rw [hst]; decide
    · rename_i hst
      obtain rfl : parkAs = .done := by
        by_contra hne
        have hf : (s.cores c).pc.finishing = false := by
          rw [hpc]
          cases parkAs <;> first | exact absurd rfl hne | rfl
        have := inv.held_alive c me hheld hf
        rw [hst] at this
        cases this
      split
      · rename_i back hback
        refine ⟨_, inv.backToSched ?_ ?_ hheld hback⟩
        · rw [hpc]; rfl
        · rw [hpc]; rfl
      · refine ⟨held, inv.goto ?_ (by simp [Pc.pendingPid]) (by simp [Pc.pendingStack]) hheld
          (by simp [Pc.releasing])⟩
        rw [hpc]
        exact ⟨rfl, fun _ => rfl, rfl, fun _ h => h⟩
    · rename_i hne _ hdone
      exact ⟨held, inv.goto_plain (plain (running hdone)) rfl trivial (by simp [Pc.releasing])⟩

/-- `reschedule`, from the guard to its release. -/
theorem Inv.reschedule (inv : Inv s held) {parkAs : TaskState} {now : BitVec 32}
    (hpc : (s.cores c).pc = .sched parkAs) : ∃ held', Inv (reschedule s c parkAs now) held' := by
  unfold Sched.reschedule
  simp only [inv.cur_eq c]
  have parked := (inv.remember c).parkMe ((remember_pc c).trans hpc)
  have hpc' : ((Sched.parkMe (Sched.remember s c) (held c) parkAs).cores c).pc =
      .sched parkAs := by
    rw [parkMe_cores, remember_pc, hpc]
  split
  · rename_i next hnext
    refine ⟨_, parked.claim ?_ ?_ (pick_some hnext)⟩
    · rw [hpc']; rfl
    · rw [hpc']; rfl
  · exact parked.nothingElse hpc'

/-- One turn of the loop that waits out a sleeping task's deadline. -/
theorem Inv.sleepTurn (inv : Inv s held) {me : Slot} {wake now : BitVec 32}
    (hpc : (s.cores c).pc = .sleepWait me wake) :
    ∃ held', Inv (sleepTurn s c me wake now) held' := by
  have hme : held c = some me := by
    have ok := inv.pc c
    rwa [hpc] at ok
  unfold Sched.sleepTurn
  split
  · have alive := inv.held_alive c me hme (by rw [hpc]; rfl)
    refine ⟨held, Inv.goto_plain (inv.touch_alive alive rfl) ?_ rfl trivial
      (by simp [Pc.releasing])⟩
    simp [hpc, Pc.plain]
  · split
    · rename_i next hnext
      rw [← hme]
      refine ⟨_, inv.claim ?_ ?_ (pick_some hnext)⟩
      · rw [hpc]; rfl
      · rw [hpc]; rfl
    · exact ⟨held, inv⟩

/-- One turn of the loop in which a finished task waits for a successor. -/
theorem Inv.doneTurn (inv : Inv s held) {me : Slot} {now : BitVec 32}
    (hpc : (s.cores c).pc = .doneWait me) : ∃ held', Inv (doneTurn s c me now) held' := by
  have hme : held c = some me := by
    have ok := inv.pc c
    rwa [hpc] at ok
  unfold Sched.doneTurn
  split
  · rename_i next hnext
    rw [← hme]
    refine ⟨_, inv.claim ?_ ?_ (pick_some hnext)⟩
    · rw [hpc]; rfl
    · rw [hpc]; rfl
  · exact ⟨held, inv⟩

/-- A context calls an operation. -/
theorem Inv.callOp (inv : Inv s held) (hpc : (s.cores c).pc = .user) (now : BitVec 32) (op : Op) :
    Inv (callOp s c now op) held := by
  have move {s : Sys} (inv : Inv s held) (hpc : (s.cores c).pc = .user) {pc' : Pc}
      (h : pc'.plain) (ok : pc'.Ok s (held c)) (rel : pc'.releasing = none) :
      Inv (s.goto c pc') held :=
    inv.goto_plain (by rw [hpc]; rfl) h ok (by simp [rel])
  have hpc' : ((Sched.remember s c).cores c).pc = .user := (remember_pc c).trans hpc
  have touched {s : Sys} (inv : Inv s held) (t : Slot) {f : Task → Task}
      (h : Touch (s.tasks t) (f (s.tasks t))) : Inv (s.setTask t f) held := inv.touch h
  cases op with
  | yield => exact move inv hpc rfl (.inl rfl) rfl
  | sleep ms =>
    simp only [Sched.callOp, inv.cur_eq]
    split
    · rename_i me hme
      exact move (inv.remember c) hpc' rfl hme rfl
    · exact inv.remember c
  | exit =>
    simp only [Sched.callOp, inv.cur_eq]
    split
    · rename_i me hme
      exact move (inv.remember c) hpc' rfl hme rfl
    · exact inv.remember c
  | kill pid => exact move inv hpc rfl trivial rfl
  | spawn affinity => exact move inv hpc rfl trivial rfl
  | reap pid => exact move inv hpc rfl trivial rfl
  | setAffinity pid affinity =>
    simp only [Sched.callOp]
    split
    · exact touched inv _ ⟨rfl, .inl rfl, rfl, .inl rfl, rfl, rfl⟩
    · exact inv
  | clearStop =>
    simp only [Sched.callOp]
    split
    · exact touched (inv.remember c) _ ⟨rfl, .inl rfl, rfl, .inl rfl, rfl, rfl⟩
    · exact inv.remember c
  | markShell =>
    simp only [Sched.callOp]
    split
    · refine (inv.remember c).same ?_
      constructor <;> simp
    · exact inv.remember c

/-- Where the scheduler decides what the core executes next. -/
def Pc.decides : Pc → Bool
  | .sched _ | .sleepWait .. | .doneWait _ => true
  | _ => false

/-- One orderly move in which no core changes its current task. -/
theorem Inv.step_held (inv : Inv s held) {m : Move} (orderly : Orderly s (c, m))
    (h : Sched.step s (c, m) = some s') (stays : (s.cores c).pc.decides = false) : Inv s' held := by
  cases m with
  | call op now =>
    simp only [Sched.step] at h
    split at h
    · rename_i hpc
      obtain rfl := Option.some.inj h
      exact inv.callOp hpc now op
    · cases h
  | malloc ok =>
    simp only [Sched.step] at h
    split at h
    · rename_i l hpc
      obtain rfl := Option.some.inj h
      exact inv.mallocStep hpc ok
    · cases h
  | go now =>
    simp only [Sched.step, go] at h
    have ok := inv.pc c
    replace orderly : (s.cores c).pc.orderly s = true := orderly
    cases hpc : (s.cores c).pc with
    | user => rw [hpc] at h; cases h
    | sched parkAs => rw [hpc] at stays; cases stays
    | sleepWait me wake => rw [hpc] at stays; cases stays
    | doneWait me => rw [hpc] at stays; cases stays
    | load me next =>
      rw [hpc] at h ok
      obtain ⟨hnext, hsp⟩ := ok
      refine Option.some.inj h ▸ inv.goto ?_ (by simp [Pc.pendingPid])
        (by simp [Pc.pendingStack]) ?_ (by simp [Pc.releasing])
      · rw [hpc]
        exact ⟨rfl, fun _ => rfl, rfl, fun _ h => h⟩
      · simpa [Pc.Ok, hnext] using hsp
    | store me dst =>
      rw [hpc] at h
      exact Option.some.inj h ▸ inv.storeSp hpc
    | clear me dst =>
      rw [hpc] at h
      exact Option.some.inj h ▸ inv.clearLive hpc
    | resume dst =>
      rw [hpc] at h
      exact Option.some.inj h ▸ inv.goto_plain (by rw [hpc]; rfl) rfl trivial
        (by simp [Pc.releasing])
    | sleepWrite me wake =>
      rw [hpc] at h
      refine Option.some.inj h ▸ inv.touch_goto ⟨rfl, .inl rfl, rfl, .inl rfl, rfl, rfl⟩
        (.of_plain (by rw [hpc]; rfl) rfl) (by simp [Pc.pendingPid]) (by simp [Pc.pendingStack])
        (.inr (.inl rfl)) (by simp [Pc.releasing])
    | exitWrite me =>
      rw [hpc] at h
      exact Option.some.inj h ▸ inv.exitWrite hpc
    | lookup job pid i =>
      rw [hpc] at h
      refine Option.some.inj h ▸ ?_
      have plain : (s.cores c).pc.plain := by rw [hpc]; rfl
      simp only [lookupStep]
      split
      · split
        · exact inv.goto_plain plain rfl trivial (by simp [Pc.releasing])
        · exact inv.goto_plain plain rfl trivial (by simp [Pc.releasing])
      · exact inv.goto_plain plain rfl trivial (by simp [Pc.releasing])
    | lookupPid job pid i =>
      rw [hpc] at h
      refine Option.some.inj h ▸ ?_
      have plain : (s.cores c).pc.plain := by rw [hpc]; rfl
      simp only [lookupPidStep]
      split
      · cases job
        · exact inv.goto_plain plain rfl trivial (by simp [Pc.releasing])
        · exact inv.goto_plain plain rfl trivial (by simp [Pc.releasing])
      · exact inv.goto_plain plain rfl trivial (by simp [Pc.releasing])
    | kill pc t =>
      rw [hpc] at h orderly
      refine Option.some.inj h ▸ inv.killStep hpc ?_
      rintro rfl
      exact orderly
    | reap pc t =>
      rw [hpc] at h orderly
      refine Option.some.inj h ▸ inv.reapStep hpc ?_ ?_
      · rintro rfl
        exact of_decide_eq_true orderly
      · rintro rfl
        exact of_decide_eq_true orderly
    | reserve affinity =>
      rw [hpc] at h orderly
      refine Option.some.inj h ▸ inv.reserve hpc ?_ ?_
      · intro t ht d
        simp only [Pc.orderly, ht, decide_eq_true_eq] at orderly
        exact orderly d
      · intro hfree t ht
        simp only [Pc.orderly, hfree, decide_eq_true_eq] at orderly
        exact orderly t ht
    | spawn pc l =>
      rw [hpc] at h orderly
      refine inv.spawnStep hpc ?_ h
      rintro rfl
      exact of_decide_eq_true orderly

/-- One orderly move. -/
theorem Inv.step (inv : Inv s held) {a : Core × Move} (orderly : Orderly s a)
    (h : Sched.step s a = some s') : ∃ held', Inv s' held' := by
  obtain ⟨c, m⟩ := a
  cases decided : (s.cores c).pc.decides with
  | false => exact ⟨held, inv.step_held orderly h decided⟩
  | true =>
    have busy : (s.cores c).pc ≠ .user := fun user => by rw [user] at decided; cases decided
    cases m with
    | call op now =>
      rw [Sched.step, if_neg busy] at h
      cases h
    | malloc ok =>
      simp only [Sched.step] at h
      split at h
      · rename_i hpc
        rw [hpc] at decided
        cases decided
      · cases h
    | go now =>
      simp only [Sched.step, go] at h
      cases hpc : (s.cores c).pc with
      | sched parkAs =>
        rw [hpc] at h
        exact Option.some.inj h ▸ inv.reschedule hpc
      | sleepWait me wake =>
        rw [hpc] at h
        exact Option.some.inj h ▸ inv.sleepTurn hpc
      | doneWait me =>
        rw [hpc] at h
        exact Option.some.inj h ▸ inv.doneTurn hpc
      | _ => rw [hpc] at decided; cases decided

end

end RPCortex.Sched
