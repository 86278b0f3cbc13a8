import RPCortex.Lock.Calls

/-! One task at most has a lock, its last release frees it, and the count of a task is what it has. -/

namespace RPCortex.Lock

open Lib

variable {L : Type} {s s' : State L} {c : Fin 2} {t : Nat}

/-- A lock is free and nobody's, or one task's, at the depth that this task has. -/
def State.Owned (s : State L) (l : L) : Prop :=
  ((s.locks l).owner = 0 ∧ ∀ t, s.got t l = 0) ∨
    ∃ t, s.Known t ∧ (s.locks l).owner = s.ident t ∧ 0 < s.got t l ∧ (s.locks l).depth = s.got t l ∧
      ∀ t' ≠ t, s.got t' l = 0

/-- The call knows its task by the owner that `me` is for it. -/
def Call.Self (self : Int) : Call L → Prop
  | .enter _ _ me | .take _ _ me => me = self
  | _ => True

structure State.Sound [Fintype L] (s : State L) : Prop where
  before : s.up = false → ∀ c, s.current c = none
  running : ∀ c, ∀ t ∈ s.current c, 1 ≤ t ∧ t < s.nextPid
  quiet : ∀ t, ¬s.Known t → s.call t = .idle ∧ (∀ l, s.got t l = 0) ∧ s.marks t = 0
  self : ∀ t, (s.call t).Self (s.ident t)
  count : ∀ t, s.Known t → s.count t = s.load t
  owned : ∀ l, s.Owned l

theorem ident_ne_zero (known : s.Known t) : s.ident t ≠ 0 := by
  unfold State.ident
  unfold State.Known at known
  split
  · rename_i up
    rw [if_pos up] at known
    exact Int.natCast_ne_zero.mpr (Nat.one_le_iff_ne_zero.mp known.1)
  · decide

theorem ident_inj {t' : Nat} (known : s.Known t) (known' : s.Known t') (same : s.ident t = s.ident t') :
    t = t' := by
  unfold State.ident at same
  unfold State.Known at known known'
  split at known
  · rename_i up
    rw [if_pos up, if_pos up] at same
    exact Int.ofNat_inj.mp same
  · rename_i up
    rw [if_neg up] at known'
    rw [known, known']

/-- A task that a lock is owned by is the one that has it. -/
theorem State.Owned.mine {l : L} (owned : s.Owned l) (known : s.Known t)
    (owner : (s.locks l).owner = s.ident t) :
    0 < s.got t l ∧ (s.locks l).depth = s.got t l ∧ ∀ t' ≠ t, s.got t' l = 0 := by
  rcases owned with ⟨free, _⟩ | ⟨t', known', owner', has, depth, others⟩
  · exact absurd (owner.symm.trans free) (ident_ne_zero known)
  · obtain rfl := ident_inj known known' (owner.symm.trans owner')
    exact ⟨has, depth, others⟩

/-- A task that has levels of a lock is its owner. -/
theorem State.Owned.owner {l : L} (owned : s.Owned l) (has : 0 < s.got t l) :
    (s.locks l).owner = s.ident t ∧ (s.locks l).depth = s.got t l := by
  rcases owned with ⟨_, none_⟩ | ⟨t', _, owner, _, depth, others⟩
  · exact absurd (none_ t) (Nat.pos_iff_ne_zero.mp has)
  · by_cases same : t = t'
    · subst same
      exact ⟨owner, depth⟩
    · exact absurd (others t same) (Nat.pos_iff_ne_zero.mp has)

theorem sum_upd [Fintype L] [DecidableEq L] (f : L → Nat) (l : L) (n : Nat) :
    ∑ x, upd f l n x + f l = ∑ x, f x + n := by
  have rest : ∑ x ∈ Finset.univ.erase l, upd f l n x = ∑ x ∈ Finset.univ.erase l, f x :=
    Finset.sum_congr rfl fun x mem => upd_ne (Finset.ne_of_mem_erase mem)
  rw [← Finset.sum_erase_add _ _ (Finset.mem_univ l), ← Finset.sum_erase_add _ f (Finset.mem_univ l), rest,
    upd_same]
  omega

/-! ### The parts of a step -/

section Parts

variable (s) (c) (n : Nat)

@[simp] theorem up_setCrit : (s.setCrit c n).up = s.up := by unfold State.setCrit; split <;> rfl

@[simp] theorem nextPid_setCrit : (s.setCrit c n).nextPid = s.nextPid := by unfold State.setCrit; split <;> rfl

@[simp] theorem current_setCrit : (s.setCrit c n).current = s.current := by unfold State.setCrit; split <;> rfl

@[simp] theorem call_setCrit : (s.setCrit c n).call = s.call := by unfold State.setCrit; split <;> rfl

@[simp] theorem got_setCrit : (s.setCrit c n).got = s.got := by unfold State.setCrit; split <;> rfl

@[simp] theorem marks_setCrit : (s.setCrit c n).marks = s.marks := by unfold State.setCrit; split <;> rfl

@[simp] theorem locks_setCrit : (s.setCrit c n).locks = s.locks := by unfold State.setCrit; split <;> rfl

end Parts

/-- Entering and leaving write the count, or leave the state as it is. -/
theorem critLeave_cases (s : State L) (c : Fin 2) : s.critLeave c = s ∨ ∃ n, s.critLeave c = s.setCrit c n := by
  unfold State.critLeave
  split
  · exact Or.inl rfl
  · exact Or.inr ⟨_, rfl⟩

/-- What a task does for itself: only what it has, where it is and its count change, and locks. -/
structure Alone (s s' : State L) (t : Nat) : Prop where
  up : s'.up = s.up
  nextPid : s'.nextPid = s.nextPid
  current : s'.current = s.current
  call : ∀ t' ≠ t, s'.call t' = s.call t'
  got : ∀ t' ≠ t, s'.got t' = s.got t'
  marks : ∀ t' ≠ t, s'.marks t' = s.marks t'
  count : ∀ t' ≠ t, s.Known t → s.Known t' → s'.count t' = s.count t'

theorem Alone.known_iff (alone : Alone s s' t) (t' : Nat) : s'.Known t' ↔ s.Known t' := by
  rw [State.Known, State.Known, alone.up, alone.nextPid]

theorem Alone.ident_eq (alone : Alone s s' t) (t' : Nat) : s'.ident t' = s.ident t' := by
  rw [State.ident, State.ident, alone.up]

/-- Locks that a step leaves alone stay owned. -/
theorem Alone.owned {l : L} (alone : Alone s s' t) (owned : s.Owned l)
    (lock : (s'.locks l).owner = (s.locks l).owner ∧ (s'.locks l).depth = (s.locks l).depth)
    (got : s'.got t l = s.got t l) : s'.Owned l := by
  have same (t' : Nat) : s'.got t' l = s.got t' l := by
    by_cases is : t' = t
    · rw [is]
      exact got
    · rw [alone.got t' is]
  unfold State.Owned
  simp only [same, alone.known_iff, alone.ident_eq, lock.1, lock.2]
  exact owned

theorem Alone.setCall (alone : Alone s s' t) (k : Call L) : Alone s (s'.setCall t k) t where
  up := alone.up
  nextPid := alone.nextPid
  current := alone.current
  call t' ne := (upd_ne ne).trans (alone.call t' ne)
  got := alone.got
  marks := alone.marks
  count := alone.count

theorem Alone.setGot [DecidableEq L] (alone : Alone s s' t) (l : L) (n : Nat) : Alone s (s'.setGot t l n) t where
  up := alone.up
  nextPid := alone.nextPid
  current := alone.current
  call := alone.call
  got t' ne := (upd_ne ne).trans (alone.got t' ne)
  marks := alone.marks
  count := alone.count

theorem Alone.setLock [DecidableEq L] (alone : Alone s s' t) (l : L) (k : RpcLock) :
    Alone s (s'.setLock l k) t :=
  ⟨alone.up, alone.nextPid, alone.current, alone.call, alone.got, alone.marks, alone.count⟩

theorem Alone.marking (alone : Alone s s' t) (n : Nat) : Alone s { s' with marks := upd s.marks t n } t where
  up := alone.up
  nextPid := alone.nextPid
  current := alone.current
  call := alone.call
  got := alone.got
  marks _ ne := upd_ne ne
  count := alone.count

theorem Alone.refl (s : State L) (t : Nat) : Alone s s t :=
  ⟨rfl, rfl, rfl, fun _ _ => rfl, fun _ _ => rfl, fun _ _ => rfl, fun _ _ _ _ => rfl⟩

variable [Fintype L] (i : s.Sound)

theorem got_le_load (t : Nat) (l : L) : s.got t l ≤ s.load t := by
  have le := Finset.single_le_sum (f := s.got t) (fun x _ => Nat.zero_le _) (Finset.mem_univ l)
  unfold State.load
  omega

include i in
/-- What runs on a core is its task, or the thread of the start before there are tasks. -/
theorem State.Sound.runs_cases (on : t ∈ s.runs c) :
    s.up = true ∧ s.current c = some t ∨ s.up = false ∧ s.current c = none ∧ t = 1 := by
  unfold State.runs at on
  split at on
  · rename_i pid here
    refine Or.inl ⟨?_, here.trans on⟩
    by_contra down
    rw [i.before (Bool.eq_false_iff.mpr down) c] at here
    cases here
  · rename_i here
    split at on
    · rename_i early
      exact Or.inr ⟨early.1, here, (Option.some.inj on).symm⟩
    · cases on

include i in
theorem State.Sound.known (on : t ∈ s.runs c) : s.Known t := by
  unfold State.Known
  rcases i.runs_cases on with ⟨up, here⟩ | ⟨down, _, first⟩
  · rw [if_pos up]
    exact i.running c t here
  · rw [if_neg (by rw [down]; decide)]
    exact first

include i in
/-- `me` is the owner of the task that runs on the core. -/
theorem State.Sound.me_eq (on : t ∈ s.runs c) : s.me c = s.ident t := by
  unfold State.me State.taskSelf State.ident
  rcases i.runs_cases on with ⟨up, here⟩ | ⟨down, here, _⟩
  · have positive := (i.running c t here).1
    rw [here, if_pos up]
    exact if_pos (by simp only; omega)
  · rw [here, down]
    rfl

include i in
theorem State.Sound.critAt_eq (on : t ∈ s.runs c) : s.critAt c = s.count t := by
  unfold State.critAt State.count
  rcases i.runs_cases on with ⟨up, here⟩ | ⟨down, here, _⟩
  · rw [here, if_pos up]
  · rw [here, if_neg (by rw [down]; decide)]

include i in
theorem State.Sound.count_setCrit (on : t ∈ s.runs c) (n : Nat) : (s.setCrit c n).count t = n := by
  unfold State.setCrit State.count
  rcases i.runs_cases on with ⟨up, here⟩ | ⟨down, here, _⟩
  · rw [here]
    exact (if_pos up).trans upd_same
  · rw [here]
    exact if_neg (by rw [down]; decide)

include i in
theorem State.Sound.count_setCrit_ne {t' : Nat} (on : t ∈ s.runs c) (ne : t' ≠ t) (is : s.Known t') (n : Nat) :
    (s.setCrit c n).count t' = s.count t' := by
  unfold State.setCrit State.count
  rcases i.runs_cases on with ⟨up, here⟩ | ⟨down, _, first⟩
  · rw [here]
    exact (if_pos up).trans ((upd_ne ne).trans (if_pos up).symm)
  · have down' : ¬s.up = true := by rw [down]; decide
    rw [State.Known, if_neg down'] at is
    exact absurd (is.trans first.symm) ne

include i in
/-- A step that a task takes for itself keeps the state sound, when it does for the task. -/
theorem State.Sound.alone (known : s.Known t) (alone : Alone s s' t) (self : (s'.call t).Self (s.ident t))
    (count : s'.count t = s'.load t) (owned : ∀ l, s'.Owned l) : s'.Sound where
  before down c := by
    rw [alone.current]
    exact i.before (alone.up.symm.trans down) c
  running c t' on := by
    rw [alone.current] at on
    rw [alone.nextPid]
    exact i.running c t' on
  quiet t' unknown := by
    have unknown' := fun is => unknown ((alone.known_iff t').mpr is)
    have other : t' ≠ t := fun same => unknown' (same ▸ known)
    rw [alone.call t' other, alone.got t' other, alone.marks t' other]
    exact i.quiet t' unknown'
  self t' := by
    rw [alone.ident_eq]
    by_cases same : t' = t
    · rw [same]
      exact self
    · rw [alone.call t' same]
      exact i.self t'
  count t' is := by
    by_cases same : t' = t
    · rw [same]
      exact count
    · have is' := (alone.known_iff t').mp is
      rw [alone.count t' same known is', State.load, alone.got t' same, alone.marks t' same, alone.call t' same]
      exact i.count t' is'
  owned := owned

include i in
theorem State.Sound.count_critEnter (on : t ∈ s.runs c) (room : s.load t + 1 < 2 ^ 32) :
    (s.critEnter c).count t = s.load t + 1 := by
  unfold State.critEnter
  rw [i.count_setCrit on, i.critAt_eq on, i.count t (i.known on), Nat.mod_eq_of_lt room]

include i in
theorem State.Sound.count_critLeave (on : t ∈ s.runs c) : (s.critLeave c).count t = s.load t - 1 := by
  have count := i.count t (i.known on)
  unfold State.critLeave
  rw [i.critAt_eq on]
  split
  · omega
  · rw [i.count_setCrit on, count]

include i in
theorem State.Sound.alone_setCrit (on : t ∈ s.runs c) (n : Nat) : Alone s (s.setCrit c n) t where
  up := up_setCrit s c n
  nextPid := nextPid_setCrit s c n
  current := current_setCrit s c n
  call _ _ := congrFun (call_setCrit s c n) _
  got _ _ := congrFun (got_setCrit s c n) _
  marks _ _ := congrFun (marks_setCrit s c n) _
  count _ ne _ is := i.count_setCrit_ne on ne is n

include i in
theorem State.Sound.alone_critLeave (on : t ∈ s.runs c) : Alone s (s.critLeave c) t := by
  rcases critLeave_cases s c with same | ⟨n, set⟩
  · rw [same]
    exact ⟨rfl, rfl, rfl, fun _ _ => rfl, fun _ _ => rfl, fun _ _ => rfl, fun _ _ _ _ => rfl⟩
  · rw [set]
    exact i.alone_setCrit on n

include i in
/-- A task that goes on in its call, with its count as it was. -/
theorem State.Sound.setCall (known : s.Known t) {k : Call L} (counted : k.counted = (s.call t).counted)
    (self : k.Self (s.ident t)) : (s.setCall t k).Sound := by
  have alone := (Alone.refl s t).setCall k
  refine i.alone known alone ?_ ?_ fun l => alone.owned (i.owned l) ⟨rfl, rfl⟩ rfl
  · show (upd s.call t k t).Self _
    rw [upd_same]
    exact self
  · show s.count t = ∑ l, s.got t l + s.marks t + (upd s.call t k t).counted
    rw [upd_same, counted]
    exact i.count t known

include i in
/-- A task that is marked. -/
theorem State.Sound.enters (on : t ∈ s.runs c) {k : Call L} (room : s.load t + 1 < 2 ^ 32)
    (counted : k.counted = (s.call t).counted + 1) (self : k.Self (s.ident t)) :
    ((s.critEnter c).setCall t k).Sound := by
  have alone : Alone s ((s.critEnter c).setCall t k) t := (i.alone_setCrit on _).setCall k
  refine i.alone (i.known on) alone ?_ ?_ fun l => alone.owned (i.owned l) ?_ ?_
  · show (upd (s.critEnter c).call t k t).Self _
    rw [upd_same]
    exact self
  · show (s.critEnter c).count t = ∑ l, (s.critEnter c).got t l + (s.critEnter c).marks t +
      (upd (s.critEnter c).call t k t).counted
    rw [upd_same, counted, i.count_critEnter on room, State.critEnter, got_setCrit, marks_setCrit, State.load]
    omega
  · show ((s.critEnter c).locks l).owner = _ ∧ ((s.critEnter c).locks l).depth = _
    rw [State.critEnter, locks_setCrit]
    exact ⟨rfl, rfl⟩
  · show (s.critEnter c).got t l = _
    rw [State.critEnter, got_setCrit]

include i in
/-- A task whose mark is taken back. -/
theorem State.Sound.leaves (on : t ∈ s.runs c) {s' : State L} {k : Call L} (alone : Alone s (s'.setCall t k) t)
    (parts : s'.got = s.got ∧ s'.marks = s.marks ∧
      ∀ l, (s'.locks l).owner = (s.locks l).owner ∧ (s'.locks l).depth = (s.locks l).depth)
    (count : s'.count t = s.load t - 1) (counted : k.counted + 1 = (s.call t).counted)
    (self : k.Self (s.ident t)) : (s'.setCall t k).Sound := by
  refine i.alone (i.known on) alone ?_ ?_ fun l => alone.owned (i.owned l) (parts.2.2 l) (congrFun (congrFun parts.1 t) l)
  · show (upd s'.call t k t).Self _
    rw [upd_same]
    exact self
  · show s'.count t = ∑ l, s'.got t l + s'.marks t + (upd s'.call t k t).counted
    rw [upd_same, parts.1, parts.2.1, count, State.load]
    omega

variable [DecidableEq L]

include i in
/-- What `lock_try` does under the hardware lock. -/
theorem State.Sound.tryTake (on : t ∈ s.runs c) {l : L} {again : Bool} {self : Int}
    (call : s.call t = .take l again self) (room : s.load t + 1 < 2 ^ 32) :
    (s.tryTake t l again self).Sound := by
  have known := i.known on
  have me : self = s.ident t := by
    have self := i.self t
    rw [call] at self
    exact self
  -- One more level, for the mark.
  have taken {k : RpcLock} (owner : k.owner = s.ident t) (depth : k.depth = s.got t l + 1)
      (others : ∀ t' ≠ t, s.got t' l = 0) :
      (((s.setLock l k).setGot t l (s.got t l + 1)).setCall t .idle).Sound := by
    have alone := (((Alone.refl s t).setLock l k).setGot l (s.got t l + 1)).setCall .idle
    refine i.alone known alone ?_ ?_ fun l' => ?_
    · show (upd s.call t .idle t).Self _
      rw [upd_same]
      trivial
    · show s.count t = ∑ x, upd s.got t (upd (s.got t) l (s.got t l + 1)) t x + s.marks t +
        (upd s.call t .idle t).counted
      have sum := sum_upd (s.got t) l (s.got t l + 1)
      rw [upd_same, upd_same, i.count t known, State.load, call]
      show _ + _ + 1 = _ + _ + 0
      omega
    · by_cases same : l' = l
      · subst same
        refine Or.inr ⟨t, (alone.known_iff t).mpr known, ?_, ?_, ?_, fun t' ne => ?_⟩
        · show (upd s.locks l' k l').owner = _
          rw [upd_same, alone.ident_eq, owner]
        · show 0 < upd s.got t (upd (s.got t) l' (s.got t l' + 1)) t l'
          rw [upd_same, upd_same]
          exact Nat.succ_pos _
        · show (upd s.locks l' k l').depth = upd s.got t (upd (s.got t) l' (s.got t l' + 1)) t l'
          rw [upd_same, upd_same, upd_same, depth]
        · rw [alone.got t' ne]
          exact others t' ne
      · refine alone.owned (i.owned l') ?_ ?_
        · show (upd s.locks l k l').owner = _ ∧ (upd s.locks l k l').depth = _
          rw [upd_ne same]
          exact ⟨rfl, rfl⟩
        · show upd s.got t (upd (s.got t) l (s.got t l + 1)) t l' = _
          rw [upd_same, upd_ne same]
  unfold State.tryTake
  split
  · rename_i free
    rcases i.owned l with ⟨_, none_⟩ | ⟨t', known', owner, _⟩
    · exact taken me (by rw [none_ t]) fun t' _ => none_ t'
    · exact absurd (owner.symm.trans free) (ident_ne_zero known')
  · split
    · rename_i owner
      obtain ⟨_, depth, others⟩ := (i.owned l).mine known (owner.trans me)
      refine taken (owner.trans me) ?_ others
      have le := got_le_load (s := s) t l
      show ((s.locks l).depth + 1) % 2 ^ 32 = _
      rw [depth, Nat.mod_eq_of_lt (by omega)]
    · exact i.setCall known (by rw [call]; rfl) trivial

include i in
/-- What `lock_release` does under the hardware lock. -/
theorem State.Sound.tryFree (on : t ∈ s.runs c) {l : L} (call : s.call t = .free l) :
    (s.tryFree c t l).Sound := by
  have known := i.known on
  unfold State.tryFree
  rw [i.me_eq on]
  split
  · rename_i held
    obtain ⟨has, depth, others⟩ := (i.owned l).mine known held.1
    set k : RpcLock := { s.locks l with
      depth := (s.locks l).depth - 1
      owner := if (s.locks l).depth - 1 = 0 then 0 else (s.locks l).owner } with lock
    have alone := (((Alone.refl s t).setLock l k).setGot l (s.got t l - 1)).setCall .leave
    refine i.alone known alone ?_ ?_ fun l' => ?_
    · show (upd s.call t .leave t).Self _
      rw [upd_same]
      trivial
    · show s.count t = ∑ x, upd s.got t (upd (s.got t) l (s.got t l - 1)) t x + s.marks t +
        (upd s.call t .leave t).counted
      have sum := sum_upd (s.got t) l (s.got t l - 1)
      rw [upd_same, upd_same, i.count t known, State.load, call]
      show _ + _ + 0 = _ + _ + 1
      omega
    · by_cases same : l' = l
      · subst same
        by_cases last : s.got t l' = 1
        · refine Or.inl ⟨?_, fun t' => ?_⟩
          · show (upd s.locks l' k l').owner = 0
            rw [upd_same]
            exact if_pos (by rw [depth, last])
          · by_cases is : t' = t
            · rw [is]
              show upd s.got t (upd (s.got t) l' (s.got t l' - 1)) t l' = 0
              rw [upd_same, upd_same, last]
            · rw [alone.got t' is]
              exact others t' is
        · refine Or.inr ⟨t, (alone.known_iff t).mpr known, ?_, ?_, ?_, fun t' ne => ?_⟩
          · show (upd s.locks l' k l').owner = _
            rw [upd_same, alone.ident_eq]
            exact (if_neg (by omega)).trans held.1
          · show 0 < upd s.got t (upd (s.got t) l' (s.got t l' - 1)) t l'
            rw [upd_same, upd_same]
            omega
          · show (upd s.locks l' k l').depth = upd s.got t (upd (s.got t) l' (s.got t l' - 1)) t l'
            rw [upd_same, upd_same, upd_same, ← depth]
          · rw [alone.got t' ne]
            exact others t' ne
      · refine alone.owned (i.owned l') ?_ ?_
        · show (upd s.locks l k l').owner = _ ∧ (upd s.locks l k l').depth = _
          rw [upd_ne same]
          exact ⟨rfl, rfl⟩
        · show upd s.got t (upd (s.got t) l (s.got t l - 1)) t l' = _
          rw [upd_same, upd_ne same]
  · rename_i not_
    -- The task has no level, or it were the owner.
    have none_ : s.got t l = 0 := by
      by_contra some_
      obtain ⟨owner, depth⟩ := (i.owned l).owner (Nat.pos_of_ne_zero some_)
      exact not_ ⟨owner, by omega⟩
    have as_is : s.setGot t l (s.got t l - 1) = s := by
      have got : upd s.got t (upd (s.got t) l (s.got t l - 1)) = s.got := by
        funext t' l'
        unfold upd
        split
        · rename_i is
          show (if l' = l then s.got t l - 1 else s.got t l') = s.got t' l'
          split
          · rename_i same
            rw [is, same, none_]
          · rw [is]
        · rfl
      unfold State.setGot
      rw [got]
    rw [as_is]
    exact i.setCall known (by rw [call]; rfl) trivial

end RPCortex.Lock
