import RPCortex.Sched.Invariant

/-! What the scheduler's searches return under the invariant, and the frame rules: a core that only
moves on, and a change to a slot that is on no core. -/

namespace RPCortex.Sched

open Lib

section Searches

variable {s : Sys} {held : Core → Option Slot} {c : Core} {t : Slot}

theorem TaskState.owned_of_alive {st : TaskState} (h : st.alive) : st.owned := by
  simp [TaskState.owned, h]

theorem TaskState.owned_iff {st : TaskState} : st.owned ↔ st.alive ∨ st = .done := by
  simp [TaskState.owned]

theorem slotOf_some {pid : Int} (h : slotOf s pid = some t) :
    (s.tasks t).state ≠ .free ∧ (s.tasks t).pid = pid := by
  simpa using List.find?_some h

theorem slotOf_of_unique {pid : Int} (hst : (s.tasks t).state ≠ .free)
    (hpid : (s.tasks t).pid = pid) (unique : ∀ i, (s.tasks i).pid = pid → i = t) :
    slotOf s pid = some t := by
  cases h : slotOf s pid with
  | none =>
    have := List.find?_eq_none.mp h t (List.mem_finRange t)
    simp [hst, hpid] at this
  | some i => rw [unique i (slotOf_some h).2]

theorem pick_some {after : Int} {now : BitVec 32} (h : pick s c after now = some t) :
    (s.tasks t).live = false ∧ (s.tasks t).state.alive := by
  have := List.find?_some h
  simp only [runnableOn, Bool.and_eq_true, Bool.not_eq_true', decide_eq_true_eq] at this
  obtain ⟨-, ⟨hlive, hst⟩, -⟩ := this
  refine ⟨hlive, ?_⟩
  cases hstate : (s.tasks t).state <;> simp_all [TaskState.alive]

theorem freeSlot_some (h : freeSlot s = some t) : (s.tasks t).state = .free := by
  simpa using List.find?_some h

theorem older_done {o : Option Slot} {i : Slot} (ho : ∀ t, o = some t → (s.tasks t).state = .done)
    (h : older s o i = some t) : (s.tasks t).state = .done := by
  unfold older at h
  split at h
  · exact ho t h
  · rename_i hi
    push Not at hi
    split at h
    · cases h; exact hi
    · split at h
      · cases h; exact hi
      · exact ho t h

theorem oldestDone_some (h : oldestDone s = some t) : (s.tasks t).state = .done := by
  have all : ∀ (is : List Slot) (o : Option Slot),
      (∀ t, o = some t → (s.tasks t).state = .done) →
      ∀ t, is.foldl (older s) o = some t → (s.tasks t).state = .done := by
    intro is
    induction is with
    | nil => exact fun o ho t h => ho t h
    | cons i is ih => exact fun o ho t h => ih _ (fun u hu => older_done ho hu) t h
  exact all _ none (by simp) t h

theorem Inv.held_owned (inv : Inv s held) {i : Slot} (h : held c = some i) :
    (s.tasks i).state.owned := by
  cases hf : (s.cores c).pc.finishing with
  | false => exact TaskState.owned_of_alive (inv.held_alive c i h hf)
  | true => exact TaskState.owned_iff.mpr (.inr (inv.held_done c i h hf))

/-- A slot on a core belongs to a published task. -/
theorem Inv.owned_of_holds (inv : Inv s held) {i : Slot} (h : Holds s held c i) :
    (s.tasks i).state.owned := by
  obtain h | h := h
  · exact inv.held_owned h
  · exact inv.outgoing_owned c i h

theorem Inv.not_holds (inv : Inv s held) {i : Slot} (h : (s.tasks i).live = false) (d : Core) :
    ¬Holds s held d i := by
  intro hd
  have := (inv.live_iff i).mpr ⟨d, hd⟩
  simp [h] at this

/-- `cur` finds the slot of the current task. -/
theorem Inv.cur_eq (inv : Inv s held) (c : Core) : cur s c = held c := by
  have hcur := inv.current c
  cases hheld : held c with
  | none => simp [cur, hcur, hheld]
  | some i =>
    have owned := inv.held_owned hheld
    have pos := inv.pid_pos i owned
    simp only [hheld, Option.elim_some] at hcur
    have unique : ∀ j, (s.tasks j).pid = (s.tasks i).pid → j = i :=
      fun j hj => inv.pid_inj j i hj (hj ▸ pos)
    have free : (s.tasks i).state ≠ .free := by
      intro hf
      simp [hf, TaskState.owned, TaskState.alive] at owned
    have found : slotOf s (s.cores c).current = some i :=
      slotOf_of_unique free hcur.symm fun j hj => unique j (hj.trans hcur)
    unfold cur
    rw [if_neg (by omega)]
    split
    · split
      · rename_i m _ hm
        rw [unique m (hm.1.trans hcur)]
      · exact found
    · exact found

theorem Inv.remember (inv : Inv s held) (c : Core) : Inv (remember s c) held := by
  unfold Sched.remember
  split
  · exact inv
  · refine inv.same ⟨?_, ?_, ?_, ?_, ?_, ?_, ?_, ?_, ?_, ?_, ?_, ?_, ?_, ?_, ?_⟩ <;>
      first
      | (intro d; simp only [Sys.setCore_cores]; split <;> simp_all)
      | simp

end Searches

/-- The context is finished and no core stands on it. -/
def Dead (s : Sys) (k : Nat) : Prop := s.exited k = true ∧ ∀ d, (s.cores d).exec ≠ some k

/-- Moving from `pc` to `pc'` changes nothing that another core or the table depends on. -/
structure Quiet (pc pc' : Pc) : Prop where
  outgoing : pc'.outgoing = pc.outgoing
  standing : ∀ h, pc'.standing h = pc.standing h
  finishing : pc'.finishing = pc.finishing
  reserved : ∀ i, pc'.reserved = some i → pc.reserved = some i

/-- The positions at which a core has nothing pending. -/
def Pc.plain : Pc → Bool
  | .user | .sched .ready | .sched .sleeping | .sleepWait .. | .resume _ | .sleepWrite ..
  | .exitWrite _ | .lookup .. | .lookupPid .. | .kill .. | .reap .. | .reserve _
  | .spawn .report _ => true
  | _ => false

theorem Quiet.of_plain {pc pc' : Pc} (h : pc.plain) (h' : pc'.plain) : Quiet pc pc' := by
  have of {pc : Pc} (h : pc.plain) : pc.outgoing = none ∧ (∀ h, pc.standing h = h) ∧
      pc.finishing = false ∧ pc.reserved = none := by
    cases pc with
    | sched p => cases p <;> simp_all [Pc.plain, Pc.outgoing, Pc.standing, Pc.finishing,
        Pc.reserved]
    | spawn p l => cases p <;> simp_all [Pc.plain, Pc.outgoing, Pc.standing, Pc.finishing,
        Pc.reserved]
    | _ => simp_all [Pc.plain, Pc.outgoing, Pc.standing, Pc.finishing, Pc.reserved]
  obtain ⟨o, st, f, r⟩ := of h
  obtain ⟨o', st', f', r'⟩ := of h'
  exact ⟨by rw [o, o'], fun x => by rw [st, st'], by rw [f, f'], by simp [r']⟩

theorem pendingPid_of_plain {pc : Pc} (h : pc.plain) : pc.pendingPid = none := by
  cases pc with
  | spawn p l => cases p <;> simp_all [Pc.plain, Pc.pendingPid]
  | _ => rfl

theorem pendingStack_of_plain {pc : Pc} (h : pc.plain) : pc.pendingStack = none := by
  cases pc with
  | spawn p l => cases p <;> simp_all [Pc.plain, Pc.pendingStack]
  | _ => rfl

section Goto

variable {s : Sys} {held : Core → Option Slot} {c : Core} {pc' : Pc}

/-- What another core's position needs of the table depends on the slots it is concerned with. -/
theorem Pc.Ok.frame {s' : Sys} {pc : Pc} {h : Option Slot} (ok : pc.Ok s h)
    (agree : ∀ i, h = some i ∨ pc.outgoing = some i ∨ pc.reserved = some i →
      s'.tasks i = s.tasks i ∧
      ∀ k, (s.tasks i).inst = some k → s'.parks k = s.parks k ∧ s'.exited k = s.exited k) :
    pc.Ok s' h := by
  have inst {i : Slot} (hi : h = some i ∨ pc.outgoing = some i ∨ pc.reserved = some i) :
      latest s' (s'.tasks i).inst = latest s (s.tasks i).inst := by
    obtain ⟨ht, hk⟩ := agree i hi
    rw [ht]
    cases hinst : (s.tasks i).inst with
    | none => rfl
    | some k => simp [latest, (hk k hinst).1]
  have heldInst : latest s' (h.bind fun i => (s'.tasks i).inst) =
      latest s (h.bind fun i => (s.tasks i).inst) := by
    cases h with
    | none => rfl
    | some i => exact inst (.inl rfl)
  have filling {p : SpawnPc} {l : Spawning} (hres : pc.reserved = some l.slot)
      (f : Filling s p l) : Filling s' p l := by
    obtain ⟨ht, hk⟩ := agree l.slot (.inr (.inr hres))
    refine ⟨ht ▸ f.state, ht ▸ f.pid, fun hp => ?_, ht ▸ f.sp⟩
    obtain ⟨hinst, hex, hpk⟩ := f.inst hp
    rw [ht, (hk _ hinst).1, (hk _ hinst).2]
    exact ⟨hinst, hex, hpk⟩
  cases pc with
  | spawn p l => cases p <;> first | exact trivial | exact filling rfl ok
  | load me next =>
    have hi := inst (.inl ok.1)
    refine ⟨ok.1, ?_⟩
    rw [hi, (agree next (.inl ok.1)).1]
    exact ok.2
  | store me dst => exact Eq.trans ok heldInst.symm
  | resume dst => exact Eq.trans ok heldInst.symm
  | clear me dst =>
    have hi := inst (.inr (.inl rfl) : h = some me ∨ (Pc.clear me dst).outgoing = some me ∨ _)
    refine ⟨Eq.trans ok.1 heldInst.symm, ?_⟩
    rw [hi, (agree me (.inr (.inl rfl))).1]
    exact ok.2
  | _ => exact ok

theorem Quiet.outgoing_goto (q : Quiet (s.cores c).pc pc') (d : Core) :
    ((s.goto c pc').cores d).pc.outgoing = (s.cores d).pc.outgoing := by
  rw [Sys.goto_cores]
  split
  · subst d; exact q.outgoing
  · rfl

theorem Quiet.holds_goto (q : Quiet (s.cores c).pc pc') (d : Core) (i : Slot) :
    Holds (s.goto c pc') held d i ↔ Holds s held d i := by
  unfold Holds
  rw [q.outgoing_goto]

theorem goto_proj {β : Type*} (s : Sys) (c : Core) (pc' : Pc) (f : CoreState → β)
    (hf : f { s.cores c with pc := pc' } = f (s.cores c)) (d : Core) :
    f ((s.goto c pc').cores d) = f (s.cores d) := by
  rw [Sys.goto_cores]
  split
  · subst d; exact hf
  · rfl

theorem Quiet.exec_goto (q : Quiet (s.cores c).pc pc') (d : Core) :
    ((s.goto c pc').cores d).pc.standing (held d) = (s.cores d).pc.standing (held d) := by
  rw [Sys.goto_cores]
  split
  · subst d; exact q.standing _
  · rfl

theorem Quiet.finishing_goto (q : Quiet (s.cores c).pc pc') (d : Core) :
    ((s.goto c pc').cores d).pc.finishing = (s.cores d).pc.finishing :=
  goto_proj s c pc' (fun k => k.pc.finishing) q.finishing d

theorem Quiet.reserved_goto (q : Quiet (s.cores c).pc pc') {d : Core} {i : Slot}
    (h : ((s.goto c pc').cores d).pc.reserved = some i) : (s.cores d).pc.reserved = some i := by
  rw [Sys.goto_cores] at h
  split at h
  · subst d; exact q.reserved i h
  · exact h

/-- A core moves on without touching the table, and takes a pid or a stack no one has. -/
theorem Inv.advance (inv : Inv s held) (nextPid : Int) (nextStack : Nat)
    (q : Quiet (s.cores c).pc pc') (hpid : s.nextPid ≤ nextPid) (hstack : s.nextStack ≤ nextStack)
    (pid : ∀ p, pc'.pendingPid = some p → (s.cores c).pc.pendingPid = some p ∨
      s.nextPid ≤ p ∧ p < nextPid)
    (stack : ∀ k, pc'.pendingStack = some k → (s.cores c).pc.pendingStack = some k ∨
      s.nextStack ≤ k ∧ k < nextStack)
    (ok : pc'.Ok s (held c)) (rel : ∀ k, pc'.releasing = some k → Dead s k) :
    Inv { s.goto c pc' with nextPid, nextStack } held := by
  have hcurrent (d : Core) : ((s.goto c pc').cores d).current = (s.cores d).current :=
    goto_proj s c pc' CoreState.current rfl d
  have hexec (d : Core) : ((s.goto c pc').cores d).exec = (s.cores d).exec :=
    goto_proj s c pc' CoreState.exec rfl d
  have hsched (d : Core) : ((s.goto c pc').cores d).schedSp = (s.cores d).schedSp :=
    goto_proj s c pc' CoreState.schedSp rfl d
  exact {
    pid_range := fun i => ⟨(inv.pid_range i).1, (inv.pid_range i).2.trans_le hpid⟩
    pid_inj := inv.pid_inj
    pid_pos := inv.pid_pos
    nextPid_pos := inv.nextPid_pos.trans_le hpid
    current := fun d => by rw [hcurrent]; exact inv.current d
    live_iff := fun i =>
      (inv.live_iff i).trans (exists_congr fun d => (q.holds_goto d i).symm)
    excl := fun d e i hd he =>
      inv.excl d e i ((q.holds_goto d i).mp hd) ((q.holds_goto e i).mp he)
    outgoing_ne := by simpa only [q.outgoing_goto] using inv.outgoing_ne
    exec := by simpa only [q.exec_goto, hexec, Sys.goto_tasks] using inv.exec
    held_alive := by simpa only [q.finishing_goto, Sys.goto_tasks] using inv.held_alive
    held_done := by simpa only [q.finishing_goto, Sys.goto_tasks] using inv.held_done
    outgoing_owned := by simpa only [q.outgoing_goto, Sys.goto_tasks] using inv.outgoing_owned
    schedSp := fun d sp h => inv.schedSp d sp (hsched d ▸ h)
    pc := fun d => by
      rw [Sys.goto_cores]
      split
      · subst d; exact ok.frame fun _ _ => ⟨rfl, fun _ _ => ⟨rfl, rfl⟩⟩
      · exact (inv.pc d).frame fun _ _ => ⟨rfl, fun _ _ => ⟨rfl, rfl⟩⟩
    inst_some := inv.inst_some
    inst_lt := fun i k h => (inv.inst_lt i k h).trans_le hstack
    inst_inj := inv.inst_inj
    parked := inv.parked
    alive_not_exited := inv.alive_not_exited
    done_exited := inv.done_exited
    stackRaw := inv.stackRaw
    fresh := fun k h => inv.fresh k (hstack.trans h)
    reserved_inj := fun d e i hd he => inv.reserved_inj d e i (q.reserved_goto hd)
      (q.reserved_goto he)
    pendingPid := fun d p hd => by
      have before : ∀ e, ((s.goto c pc').cores e).pc.pendingPid = some p →
          (s.cores e).pc.pendingPid = some p ∨ e = c ∧ s.nextPid ≤ p ∧ p < nextPid := by
        intro e he
        rw [Sys.goto_cores] at he
        split at he
        · subst e; exact (pid p he).imp_right fun h => ⟨rfl, h⟩
        · exact .inl he
      obtain h | ⟨rfl, hge, hlt⟩ := before d hd
      · obtain ⟨h0, h1, h2, h3⟩ := inv.pendingPid d p h
        refine ⟨h0, h1.trans_le hpid, h2, fun e he => ?_⟩
        obtain he | ⟨rfl, hge, -⟩ := before e he
        · exact h3 e he
        · omega
      · have := inv.nextPid_pos
        refine ⟨by omega, hlt, fun i h => ?_, fun e he => ?_⟩
        · have hi := (inv.pid_range i).2
          simp only [Sys.goto_tasks] at h
          omega
        · obtain he | ⟨rfl, -⟩ := before e he
          · have := (inv.pendingPid e p he).2.1
            omega
          · rfl
    pendingStack := fun d k hd => by
      have before : ∀ e, ((s.goto c pc').cores e).pc.pendingStack = some k →
          (s.cores e).pc.pendingStack = some k ∨ e = c ∧ s.nextStack ≤ k ∧ k < nextStack := by
        intro e he
        rw [Sys.goto_cores] at he
        split at he
        · subst e; exact (stack k he).imp_right fun h => ⟨rfl, h⟩
        · exact .inl he
      obtain h | ⟨rfl, hge, hlt⟩ := before d hd
      · obtain ⟨h0, h1, h2, h3, h4⟩ := inv.pendingStack d k h
        refine ⟨h0.trans_le hstack, h1, h2, h3, fun e he => ?_⟩
        obtain he | ⟨rfl, hge, -⟩ := before e he
        · exact h4 e he
        · omega
      · refine ⟨hlt, (inv.fresh k hge).1, (inv.fresh k hge).2, fun i h => ?_, fun e he => ?_⟩
        · have hi := inv.inst_lt i k h
          omega
        · obtain he | ⟨rfl, -⟩ := before e he
          · have := (inv.pendingStack e k he).1
            omega
          · rfl
    releasing := fun d k hd => by
      simp only [hexec, Sys.goto_exited]
      rw [Sys.goto_cores] at hd
      split at hd
      · exact rel k hd
      · exact inv.releasing d k hd
    born := inv.born
    born_inj := inv.born_inj }

/-- A core moves on without touching the table. -/
theorem Inv.goto (inv : Inv s held) (q : Quiet (s.cores c).pc pc')
    (pid : ∀ p, pc'.pendingPid = some p → (s.cores c).pc.pendingPid = some p)
    (stack : ∀ k, pc'.pendingStack = some k → (s.cores c).pc.pendingStack = some k)
    (ok : pc'.Ok s (held c)) (rel : ∀ k, pc'.releasing = some k → Dead s k) :
    Inv (s.goto c pc') held :=
  inv.advance s.nextPid s.nextStack q le_rfl le_rfl (fun p h => .inl (pid p h))
    (fun k h => .inl (stack k h)) ok rel

/-- A core moves to a position at which nothing is pending. -/
theorem Inv.goto_plain (inv : Inv s held) (h : (s.cores c).pc.plain) (h' : pc'.plain)
    (ok : pc'.Ok s (held c)) (rel : ∀ k, pc'.releasing = some k → Dead s k) :
    Inv (s.goto c pc') held :=
  inv.goto (.of_plain h h') (by simp [pendingPid_of_plain h']) (by simp [pendingStack_of_plain h'])
    ok rel

end Goto

/-- The core executes its current task, which has not finished. -/
structure Settled (pc : Pc) : Prop where
  outgoing : pc.outgoing = none
  standing : ∀ h, pc.standing h = h
  finishing : pc.finishing = false

theorem Quiet.of_settled {pc pc' : Pc} (h : Settled pc) (h' : Settled pc')
    (res : ∀ i, pc'.reserved = some i → pc.reserved = some i) : Quiet pc pc' :=
  ⟨h'.outgoing.trans h.outgoing.symm, fun x => (h'.standing x).trans (h.standing x).symm,
    h'.finishing.trans h.finishing.symm, res⟩

theorem Settled.reap (pc : ReapPc) (t : Slot) : Settled (.reap pc t) := ⟨rfl, fun _ => rfl, rfl⟩

theorem Settled.spawn (pc : SpawnPc) (l : Spawning) : Settled (.spawn pc l) :=
  ⟨rfl, fun _ => rfl, rfl⟩

theorem Settled.user : Settled .user := ⟨rfl, fun _ => rfl, rfl⟩

theorem Settled.reserve (affinity : TaskAffinity) : Settled (.reserve affinity) :=
  ⟨rfl, fun _ => rfl, rfl⟩

section OffCore

variable {s : Sys} {held : Core → Option Slot} {c : Core} {t : Slot} {x : Task} {pc' : Pc}
  {born' : List Born}

/-- Core `c` replaces the contents of slot `t` and moves on. -/
def Sys.putTask (s : Sys) (c : Core) (t : Slot) (x : Task) (pc' : Pc) (born' : List Born) : Sys :=
  { (s.setTask t fun _ => x).goto c pc' with born := born' }

/-- The slot is on no core and no other core fills it, so core `c` may write it. -/
structure Mine (s : Sys) (held : Core → Option Slot) (c : Core) (t : Slot) : Prop where
  idle : ∀ d, ¬Holds s held d t
  reserved : ∀ d, d ≠ c → (s.cores d).pc.reserved ≠ some t

/-- The new contents of the slot fit into the table. -/
structure Fits (s : Sys) (c : Core) (t : Slot) (x : Task) : Prop where
  live : x.live = false
  pid_nonneg : 0 ≤ x.pid
  pid_lt : x.pid < s.nextPid
  pid_inj : 0 < x.pid → ∀ i, i ≠ t → (s.tasks i).pid ≠ x.pid
  pid_pending : ∀ d, d ≠ c → (s.cores d).pc.pendingPid ≠ some x.pid
  pid_pos : x.state.owned → 0 < x.pid
  inst_some : x.state.owned → x.inst ≠ none
  inst_lt : ∀ k, x.inst = some k → k < s.nextStack
  inst_inj : ∀ k, x.inst = some k → ∀ i, i ≠ t → (s.tasks i).inst ≠ some k
  inst_pending : ∀ k, x.inst = some k → ∀ d, d ≠ c → (s.cores d).pc.pendingStack ≠ some k
  parked : x.state.alive → x.sp = latest s x.inst
  alive_not_exited : ∀ k, x.state.alive → x.inst = some k → s.exited k = false
  done_exited : ∀ k, x.state = .done → x.inst = some k → s.exited k = true
  stackRaw : ∀ k, x.stackRaw = some k → x.inst = some k

/-- The position that core `c` moves to claims nothing but slot `t`. -/
structure Next (s : Sys) (c : Core) (t : Slot) (x : Task) (pc' : Pc) : Prop where
  settled : Settled (s.cores c).pc
  settled' : Settled pc'
  reserved : ∀ i, pc'.reserved = some i → i = t
  pendingPid : ∀ p, pc'.pendingPid = some p → (s.cores c).pc.pendingPid = some p ∧ x.pid ≠ p
  pendingStack : ∀ k, pc'.pendingStack = some k →
    (s.cores c).pc.pendingStack = some k ∧ x.inst ≠ some k
  releasing : ∀ k, pc'.releasing = some k → Dead s k

theorem standing_holds {pc : Pc} {h : Option Slot} {i : Slot} (hs : pc.standing h = some i) :
    h = some i ∨ pc.outgoing = some i := by
  cases pc <;> simp_all [Pc.standing, Pc.outgoing]

/-- A core writes a slot that is on no core. -/
theorem Inv.putTask (inv : Inv s held) (mine : Mine s held c t) (fits : Fits s c t x)
    (next : Next s c t x pc') (ok : pc'.Ok (s.putTask c t x pc' born') (held c))
    (born : ∀ b ∈ born', b.slot ≠ t ∧ b ∈ s.born ∨
      b.slot = t ∧ x.pid = b.pid ∧ x.state.owned)
    (born_inj : born'.Pairwise fun a b => a.slot ≠ b.slot) :
    Inv (s.putTask c t x pc' born') held := by
  have new : (s.putTask c t x pc' born').tasks t = x := upd_same
  have old {i : Slot} (h : i ≠ t) : (s.putTask c t x pc' born').tasks i = s.tasks i := upd_ne h
  have coresC : (s.putTask c t x pc' born').cores c = { s.cores c with pc := pc' } := upd_same
  have coresD {d : Core} (h : d ≠ c) : (s.putTask c t x pc' born').cores d = s.cores d := upd_ne h
  have outgoing (d : Core) : ((s.putTask c t x pc' born').cores d).pc.outgoing =
      (s.cores d).pc.outgoing := by
    by_cases hd : d = c
    · rw [hd, coresC, next.settled.outgoing]; exact next.settled'.outgoing
    · rw [coresD hd]
  have finishing (d : Core) : ((s.putTask c t x pc' born').cores d).pc.finishing =
      (s.cores d).pc.finishing := by
    by_cases hd : d = c
    · rw [hd, coresC, next.settled.finishing]; exact next.settled'.finishing
    · rw [coresD hd]
  have standing (d : Core) : ((s.putTask c t x pc' born').cores d).pc.standing (held d) =
      (s.cores d).pc.standing (held d) := by
    by_cases hd : d = c
    · rw [hd, coresC, next.settled.standing]; exact next.settled'.standing _
    · rw [coresD hd]
  have exec (d : Core) : ((s.putTask c t x pc' born').cores d).exec = (s.cores d).exec := by
    by_cases hd : d = c
    · rw [hd, coresC]
    · rw [coresD hd]
  have holds (d : Core) (i : Slot) : Holds (s.putTask c t x pc' born') held d i ↔
      Holds s held d i := by
    unfold Holds
    rw [outgoing]
  have ne {d : Core} {i : Slot} (h : Holds s held d i) : i ≠ t := fun e => mine.idle d (e ▸ h)
  constructor
  case pid_range =>
    intro i
    by_cases hi : i = t
    · rw [hi, new]; exact ⟨fits.pid_nonneg, fits.pid_lt⟩
    · rw [old hi]; exact inv.pid_range i
  case pid_inj =>
    intro i j hij pos
    by_cases hi : i = t <;> by_cases hj : j = t
    · rw [hi, hj]
    · rw [hi, new] at hij pos
      rw [old hj] at hij
      exact absurd hij.symm (fits.pid_inj pos j hj)
    · rw [hj, new] at hij
      rw [hij] at pos
      rw [old hi] at hij
      exact absurd hij (fits.pid_inj pos i hi)
    · rw [old hi] at hij pos
      rw [old hj] at hij
      exact inv.pid_inj i j hij pos
  case pid_pos =>
    intro i h
    by_cases hi : i = t
    · rw [hi, new] at h ⊢; exact fits.pid_pos h
    · rw [old hi] at h ⊢; exact inv.pid_pos i h
  case nextPid_pos => exact inv.nextPid_pos
  case current =>
    intro d
    have hcur : ((s.putTask c t x pc' born').cores d).current = (s.cores d).current := by
      by_cases hd : d = c
      · rw [hd, coresC]
      · rw [coresD hd]
    rw [hcur, inv.current d]
    cases hheld : held d with
    | none => rfl
    | some i => simp [old (ne (.inl hheld))]
  case live_iff =>
    intro i
    simp only [holds]
    by_cases hi : i = t
    · rw [hi, new, fits.live]
      simpa using mine.idle
    · rw [old hi]; exact inv.live_iff i
  case excl => simpa only [holds] using inv.excl
  case outgoing_ne => simpa only [outgoing] using inv.outgoing_ne
  case exec =>
    intro d
    rw [exec, standing, inv.exec d]
    cases hs : (s.cores d).pc.standing (held d) with
    | none => rfl
    | some i => simp [old (ne (standing_holds hs))]
  case held_alive =>
    intro d i h hf
    rw [finishing] at hf
    rw [old (ne (.inl h))]
    exact inv.held_alive d i h hf
  case held_done =>
    intro d i h hf
    rw [finishing] at hf
    rw [old (ne (.inl h))]
    exact inv.held_done d i h hf
  case outgoing_owned =>
    intro d i h
    rw [outgoing] at h
    rw [old (ne (.inr h))]
    exact inv.outgoing_owned d i h
  case schedSp =>
    intro d sp h
    by_cases hd : d = c
    · rw [hd, coresC] at h; exact inv.schedSp c sp h
    · rw [coresD hd] at h; exact inv.schedSp d sp h
  case pc =>
    intro d
    by_cases hd : d = c
    · rw [hd, coresC]; exact ok
    · rw [coresD hd]
      refine (inv.pc d).frame fun i hi => ⟨old ?_, fun _ _ => ⟨rfl, rfl⟩⟩
      rintro rfl
      obtain h | h | h := hi
      · exact mine.idle d (.inl h)
      · exact mine.idle d (.inr h)
      · exact mine.reserved d hd h
  case inst_some =>
    intro i h
    by_cases hi : i = t
    · rw [hi, new] at h ⊢; exact fits.inst_some h
    · rw [old hi] at h ⊢; exact inv.inst_some i h
  case inst_lt =>
    intro i k h
    by_cases hi : i = t
    · rw [hi, new] at h; exact fits.inst_lt k h
    · rw [old hi] at h; exact inv.inst_lt i k h
  case inst_inj =>
    intro i j k h h'
    by_cases hi : i = t <;> by_cases hj : j = t
    · rw [hi, hj]
    · rw [hi, new] at h
      rw [old hj] at h'
      exact absurd h' (fits.inst_inj k h j hj)
    · rw [hj, new] at h'
      rw [old hi] at h
      exact absurd h (fits.inst_inj k h' i hi)
    · rw [old hi] at h
      rw [old hj] at h'
      exact inv.inst_inj i j k h h'
  case parked =>
    intro i h hl
    by_cases hi : i = t
    · rw [hi, new] at h ⊢; exact fits.parked h
    · rw [old hi] at h hl ⊢; exact inv.parked i h hl
  case alive_not_exited =>
    intro i k h hk
    by_cases hi : i = t
    · rw [hi, new] at h hk; exact fits.alive_not_exited k h hk
    · rw [old hi] at h hk; exact inv.alive_not_exited i k h hk
  case done_exited =>
    intro i k h hk
    by_cases hi : i = t
    · rw [hi, new] at h hk; exact fits.done_exited k h hk
    · rw [old hi] at h hk; exact inv.done_exited i k h hk
  case stackRaw =>
    intro i k h
    by_cases hi : i = t
    · rw [hi, new] at h ⊢; exact fits.stackRaw k h
    · rw [old hi] at h ⊢; exact inv.stackRaw i k h
  case fresh => exact inv.fresh
  case reserved_inj =>
    intro d e i hd he
    by_cases hdc : d = c <;> by_cases hec : e = c
    · rw [hdc, hec]
    · rw [hdc, coresC] at hd
      rw [coresD hec] at he
      exact absurd (next.reserved i hd ▸ he) (mine.reserved e hec)
    · rw [hec, coresC] at he
      rw [coresD hdc] at hd
      exact absurd (next.reserved i he ▸ hd) (mine.reserved d hdc)
    · rw [coresD hdc] at hd
      rw [coresD hec] at he
      exact inv.reserved_inj d e i hd he
  case pendingPid =>
    intro d p hd
    have before : ∀ e, ((s.putTask c t x pc' born').cores e).pc.pendingPid = some p →
        (s.cores e).pc.pendingPid = some p ∧ x.pid ≠ p := by
      intro e he
      by_cases hec : e = c
      · rw [hec, coresC] at he
        rw [hec]
        exact next.pendingPid p he
      · rw [coresD hec] at he
        exact ⟨he, fun h => fits.pid_pending e hec (h ▸ he)⟩
    obtain ⟨h0, h1, h2, h3⟩ := inv.pendingPid d p (before d hd).1
    refine ⟨h0, h1, fun i => ?_, fun e he => h3 e (before e he).1⟩
    by_cases hi : i = t
    · rw [hi, new]; exact (before d hd).2
    · rw [old hi]; exact h2 i
  case pendingStack =>
    intro d k hd
    have before : ∀ e, ((s.putTask c t x pc' born').cores e).pc.pendingStack = some k →
        (s.cores e).pc.pendingStack = some k ∧ x.inst ≠ some k := by
      intro e he
      by_cases hec : e = c
      · rw [hec, coresC] at he
        rw [hec]
        exact next.pendingStack k he
      · rw [coresD hec] at he
        exact ⟨he, fun h => fits.inst_pending k h e hec he⟩
    obtain ⟨h0, h1, h2, h3, h4⟩ := inv.pendingStack d k (before d hd).1
    refine ⟨h0, h1, h2, fun i => ?_, fun e he => h4 e (before e he).1⟩
    by_cases hi : i = t
    · rw [hi, new]; exact (before d hd).2
    · rw [old hi]; exact h3 i
  case releasing =>
    intro d k hd
    simp only [exec]
    by_cases hdc : d = c
    · rw [hdc, coresC] at hd; exact next.releasing k hd
    · rw [coresD hdc] at hd; exact inv.releasing d k hd
  case born =>
    intro b hb
    obtain ⟨hne, hold⟩ | ⟨heq, hpid, howned⟩ := born b hb
    · rw [old hne]; exact inv.born b hold
    · rw [heq, new]; exact ⟨hpid, howned⟩
  case born_inj => exact born_inj

end OffCore

end RPCortex.Sched
