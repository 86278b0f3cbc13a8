import RPCortex.Lock.Held

/-! Runs of two cores that take and release locks. -/

namespace RPCortex.Lock

open Lib

variable {L : Type} {s s' : State L} {c : Fin 2} {t : Nat}

theorem sound_start [Fintype L] : (start L).Sound where
  before _ _ := rfl
  running _ _ no := by cases no
  quiet _ _ := ⟨rfl, fun _ => rfl, rfl⟩
  self _ := trivial
  count _ _ := by simp [start, State.count, State.load, Call.counted]
  owned _ := Or.inl ⟨rfl, fun _ => rfl⟩

theorem idle_some (h : t ∈ s.idle c) : t ∈ s.runs c ∧ s.call t = .idle := by
  obtain ⟨on, idle⟩ := Option.filter_eq_some_iff.mp h
  refine ⟨on, ?_⟩
  split at idle
  · assumption
  · cases idle

theorem critLeave_same (s : State L) (c : Fin 2) : (s.critLeave c).got = s.got ∧
    (s.critLeave c).marks = s.marks ∧ (s.critLeave c).locks = s.locks ∧ (s.critLeave c).call = s.call := by
  rcases critLeave_cases s c with same | ⟨n, set⟩
  · rw [same]
    exact ⟨rfl, rfl, rfl, rfl⟩
  · rw [set]
    exact ⟨got_setCrit s c n, marks_setCrit s c n, locks_setCrit s c n, call_setCrit s c n⟩

variable [Fintype L] [DecidableEq L] (i : s.Sound)

include i in
theorem State.Sound.proceed (on : t ∈ s.runs c) (room : s.load t + 1 < 2 ^ 32) : (s.proceed c t).Sound := by
  have known := i.known on
  have self := i.self t
  unfold State.proceed
  cases call : s.call t with
  | idle => exact i
  | enter l again me =>
    rw [call] at self
    exact i.enters on room (by rw [call]; rfl) self
  | take l again me => exact i.tryTake on call room
  | refused l again =>
    have alone := i.alone_critLeave on
    have same := critLeave_same s c
    cases again with
    | false =>
      refine i.leaves on (alone.setCall .idle) ⟨same.1, same.2.1, fun l' => ?_⟩ (i.count_critLeave on)
        (by rw [call]; rfl) trivial
      rw [same.2.2.1]
      exact ⟨rfl, rfl⟩
    | true =>
      refine i.leaves on ((alone.setLock l _).setCall (.wait l)) ⟨same.1, same.2.1, fun l' => ?_⟩
        (i.count_critLeave on) (by rw [call]; rfl) trivial
      show (upd (s.critLeave c).locks l _ l').owner = _ ∧ (upd (s.critLeave c).locks l _ l').depth = _
      rw [same.2.2.1]
      unfold upd
      split
      · rename_i is
        rw [is]
        exact ⟨rfl, rfl⟩
      · exact ⟨rfl, rfl⟩
  | wait l => exact i.setCall known (by rw [call]; rfl) (i.me_eq on)
  | free l => exact i.tryFree on call
  | leave =>
    have alone := i.alone_critLeave on
    have same := critLeave_same s c
    refine i.leaves on (alone.setCall .idle) ⟨same.1, same.2.1, fun l' => ?_⟩ (i.count_critLeave on)
      (by rw [call]; rfl) trivial
    rw [same.2.2.1]
    exact ⟨rfl, rfl⟩

omit [DecidableEq L] in
include i in
/-- What puts tasks on cores, or makes one, leaves calls, locks and levels alone. -/
theorem State.Sound.schedule (up : s.up = true) {s' : State L}
    (same : s'.up = true ∧ s'.call = s.call ∧ s'.got = s.got ∧ s'.marks = s.marks ∧ s'.locks = s.locks)
    (nextPid : s.nextPid ≤ s'.nextPid) (running : ∀ c, ∀ t ∈ s'.current c, 1 ≤ t ∧ t < s'.nextPid)
    (crit : ∀ t, s'.Known t → s'.crit t = if t < s.nextPid then s.crit t else 0) : s'.Sound := by
  obtain ⟨up', call, got, marks, locks⟩ := same
  have known {t' : Nat} (is : s.Known t') : s'.Known t' := by
    unfold State.Known at is ⊢
    rw [if_pos up] at is
    rw [if_pos up']
    exact ⟨is.1, is.2.trans_le nextPid⟩
  have ident (t' : Nat) : s'.ident t' = s.ident t' := by rw [State.ident, State.ident, up, up']
  refine ⟨fun down => ?_, running, fun t' unknown => ?_, fun t' => ?_, fun t' is => ?_, fun l => ?_⟩
  · rw [up'] at down
    cases down
  · rw [call, got, marks]
    exact i.quiet t' fun is => unknown (known is)
  · rw [call, ident]
    exact i.self t'
  · have load : s'.load t' = s.load t' := by rw [State.load, State.load, call, got, marks]
    rw [State.count, if_pos up', load, crit t' is]
    unfold State.Known at is
    rw [if_pos up'] at is
    split
    · rename_i old
      have count := i.count t' (by rw [State.Known, if_pos up]; exact ⟨is.1, old⟩)
      rw [State.count, if_pos up] at count
      exact count
    · rename_i new
      obtain ⟨idle, none_, unmarked⟩ := i.quiet t' fun is => by
        rw [State.Known, if_pos up] at is
        exact new is.2
      rw [State.load, idle, unmarked, Finset.sum_eq_zero fun l _ => none_ l]
      rfl
  · unfold State.Owned
    rw [locks, got]
    rcases i.owned l with free | ⟨t', is, owner, rest⟩
    · exact Or.inl free
    · exact Or.inr ⟨t', known is, by rw [ident]; exact owner, rest⟩

omit [DecidableEq L] in
include i in
theorem State.Sound.taskInit (down : s.up = false) (idle : s.call 1 = .idle) (none_ : ∀ l, s.got 1 l = 0)
    (unmarked : s.marks 1 = 0) : { s with
      up := true, nextPid := 2, current := upd (fun _ => none) 0 (some 1), crit := fun _ => 0 }.Sound := by
  have quiet (t : Nat) : s.call t = .idle ∧ (∀ l, s.got t l = 0) ∧ s.marks t = 0 := by
    by_cases first : t = 1
    · rw [first]
      exact ⟨idle, none_, unmarked⟩
    · exact i.quiet t (by rw [State.Known, down]; exact first)
  refine ⟨fun no => Bool.noConfusion no, fun c t on => ?_, fun t _ => quiet t, fun t => ?_, fun t _ => ?_, fun l => ?_⟩
  · have here : upd (fun _ => none) 0 (some 1) c = some t := on
    unfold upd at here
    split at here
    · obtain rfl := Option.some.inj here
      exact ⟨Nat.le_refl 1, show 1 < 2 by decide⟩
    · cases here
  · show (s.call t).Self _
    rw [(quiet t).1]
    trivial
  · show 0 = ∑ l, s.got t l + s.marks t + (s.call t).counted
    obtain ⟨idle, none_, unmarked⟩ := quiet t
    rw [idle, unmarked, Finset.sum_eq_zero fun l _ => none_ l]
    rfl
  · refine Or.inl ⟨?_, fun t => (quiet t).2.1 l⟩
    rcases i.owned l with ⟨free, _⟩ | ⟨t', _, _, has, _⟩
    · exact free
    · exact absurd ((quiet t').2.1 l) (Nat.pos_iff_ne_zero.mp has)

theorem State.Sound.step {e : Event L} (i : s.Sound) (steady : Steady s e) (taken : step s e = some s') :
    s'.Sound := by
  cases e with
  | lockTry c l =>
    obtain ⟨t, idle, rfl⟩ := Option.map_eq_some_iff.mp taken
    obtain ⟨on, call⟩ := idle_some idle
    exact i.setCall (i.known on) (by rw [call]; rfl) (i.me_eq on)
  | lockAcquire c l =>
    obtain ⟨t, idle, rfl⟩ := Option.map_eq_some_iff.mp taken
    obtain ⟨on, call⟩ := idle_some idle
    exact i.setCall (i.known on) (by rw [call]; rfl) (i.me_eq on)
  | lockRelease c l =>
    obtain ⟨t, idle, rfl⟩ := Option.map_eq_some_iff.mp taken
    obtain ⟨on, call⟩ := idle_some idle
    exact i.setCall (i.known on) (by rw [call]; rfl) trivial
  | go c =>
    obtain ⟨t, on, rfl⟩ := Option.map_eq_some_iff.mp taken
    exact i.proceed on (steady.2 c t on)
  | critEnter c =>
    obtain ⟨t, idle, rfl⟩ := Option.map_eq_some_iff.mp taken
    obtain ⟨on, call⟩ := idle_some idle
    have room := steady.2 c t on
    have alone := (i.alone_setCrit on ((s.critAt c + 1) % 2 ^ 32)).marking (s.marks t + 1)
    refine i.alone (i.known on) alone ?_ ?_ fun l => alone.owned (i.owned l) ?_ ?_
    · show ((s.setCrit c _).call t).Self _
      rw [call_setCrit]
      exact i.self t
    · show (s.critEnter c).count t = ∑ l, (s.setCrit c _).got t l + upd s.marks t (s.marks t + 1) t +
        ((s.setCrit c _).call t).counted
      rw [upd_same, got_setCrit, call_setCrit, i.count_critEnter on room, State.load]
      omega
    · show ((s.setCrit c _).locks l).owner = _ ∧ ((s.setCrit c _).locks l).depth = _
      rw [locks_setCrit]
      exact ⟨rfl, rfl⟩
    · show (s.setCrit c _).got t l = _
      rw [got_setCrit]
  | critLeave c =>
    obtain ⟨t, marked, rfl⟩ := Option.map_eq_some_iff.mp taken
    obtain ⟨idle, positive⟩ := Option.filter_eq_some_iff.mp marked
    obtain ⟨on, call⟩ := idle_some idle
    have some_ : 0 < s.marks t := of_decide_eq_true positive
    obtain ⟨got, marks, locks, calls⟩ := critLeave_same s c
    have alone := (i.alone_critLeave on).marking (s.marks t - 1)
    refine i.alone (i.known on) alone ?_ ?_ fun l => alone.owned (i.owned l) ?_ ?_
    · show ((s.critLeave c).call t).Self _
      rw [calls]
      exact i.self t
    · show (s.critLeave c).count t = ∑ l, (s.critLeave c).got t l + upd s.marks t (s.marks t - 1) t +
        ((s.critLeave c).call t).counted
      rw [upd_same, got, calls, i.count_critLeave on, State.load]
      omega
    · show ((s.critLeave c).locks l).owner = _ ∧ ((s.critLeave c).locks l).depth = _
      rw [locks]
      exact ⟨rfl, rfl⟩
    · show (s.critLeave c).got t l = _
      rw [got]
  | taskInit =>
    simp only [Lock.step] at taken
    split at taken
    · cases taken
    · rename_i down
      have down := Bool.eq_false_iff.mpr down
      obtain ⟨t, idle, rfl⟩ := Option.map_eq_some_iff.mp taken
      obtain ⟨on, call⟩ := idle_some idle
      rcases i.runs_cases on with ⟨up, _⟩ | ⟨_, _, rfl⟩
      · rw [down] at up
        cases up
      · exact i.taskInit down call (steady.1 rfl).1 (steady.1 rfl).2
  | spawn =>
    simp only [Lock.step] at taken
    split at taken
    · rename_i up
      obtain rfl := Option.some.inj taken
      refine i.schedule up ⟨up, rfl, rfl, rfl, rfl⟩ (Nat.le_succ _) (fun c t on => ?_) fun t is => ?_
      · exact ⟨(i.running c t on).1, (i.running c t on).2.trans (Nat.lt_succ_self _)⟩
      · have lt : t < s.nextPid + 1 := by
          rw [State.Known, if_pos up] at is
          exact is.2
        show upd s.crit s.nextPid 0 t = _
        unfold upd
        split
        · rename_i new
          rw [if_neg (by omega)]
        · rw [if_pos (by omega)]
    · cases taken
  | reschedule c next =>
    simp only [Lock.step] at taken
    split at taken
    · rename_i can
      obtain rfl := Option.some.inj taken
      refine i.schedule can.1 ⟨can.1, rfl, rfl, rfl, rfl⟩ le_rfl (fun c' t on => ?_) fun t is => ?_
      · have here : upd s.current c next c' = some t := on
        unfold upd at here
        split at here
        · have ready := can.2.2 t here
          unfold State.ready at ready
          rw [decide_eq_true_eq] at ready
          exact ⟨ready.1, ready.2.1⟩
        · exact i.running c' t here
      · rw [State.Known, if_pos can.1] at is
        exact (if_pos is.2).symm
    · cases taken
  | force c =>
    obtain ⟨t, free, rfl⟩ := Option.map_eq_some_iff.mp taken
    obtain ⟨here, none_⟩ := Option.filter_eq_some_iff.mp free
    have on : t ∈ s.runs c := by
      unfold State.runs
      rw [here]
      rfl
    have count := i.count t (i.known on)
    rw [← i.critAt_eq on, of_decide_eq_true none_, State.load] at count
    exact i.setCall (i.known on) (show 0 = _ by omega) trivial
  | taskExit c =>
    simp only [Lock.step] at taken
    split at taken
    · rename_i up
      obtain ⟨t, _, rfl⟩ := Option.map_eq_some_iff.mp taken
      refine i.schedule up ⟨up, rfl, rfl, rfl, rfl⟩ le_rfl (fun c' t on => ?_) fun t is => ?_
      · have here : upd s.current c none c' = some t := on
        unfold upd at here
        split at here
        · cases here
        · exact i.running c' t here
      · rw [State.Known, if_pos up] at is
        exact (if_pos is.2).symm
    · cases taken

omit [DecidableEq L] in
include i in
/-- A task is the owner of a lock at the depth that it was given, and of no other. -/
theorem State.Sound.levels_eq (known : s.Known t) (l : L) : s.levels t l = s.got t l := by
  unfold State.levels
  split
  · rename_i owner
    exact ((i.owned l).mine known owner).2.1
  · rename_i other
    by_contra some_
    exact other ((i.owned l).owner (Nat.pos_of_ne_zero (Ne.symm some_))).1

omit [Fintype L] in
/-- What frees a lock replaces it by one without an owner. -/
theorem owner_upd {l l' : L} {lk : RpcLock} (owner : (s.locks l).owner ≠ 0)
    (free : (upd s.locks l' lk l).owner = 0) : l = l' ∧ lk.owner = 0 := by
  by_cases is : l = l'
  · rw [is, upd_same] at free
    exact ⟨is, free⟩
  · rw [upd_ne is] at free
    exact absurd free owner

include i in
/-- A lock becomes free by a release, of the one level that its owner has. -/
theorem State.Sound.freed {e : Event L} {l : L} (taken : Lock.step s e = some s') (owner : (s.locks l).owner ≠ 0)
    (free : (s'.locks l).owner = 0) : ∃ c t, e = .go c ∧ t ∈ s.runs c ∧ s.call t = .free l ∧ s.got t l = 1 := by
  have same (locks : s'.locks = s.locks) : False := owner (locks ▸ free)
  cases e with
  | lockTry c l =>
    obtain ⟨t, _, rfl⟩ := Option.map_eq_some_iff.mp taken
    exact (same rfl).elim
  | lockAcquire c l =>
    obtain ⟨t, _, rfl⟩ := Option.map_eq_some_iff.mp taken
    exact (same rfl).elim
  | lockRelease c l =>
    obtain ⟨t, _, rfl⟩ := Option.map_eq_some_iff.mp taken
    exact (same rfl).elim
  | go c =>
    obtain ⟨t, on, rfl⟩ := Option.map_eq_some_iff.mp taken
    refine ⟨c, t, rfl, on, ?_⟩
    have known := i.known on
    have leave := (critLeave_same s c).2.2.1
    unfold State.proceed at same free
    cases call : s.call t with
    | idle =>
      rw [call] at same
      exact (same rfl).elim
    | enter l' again me =>
      rw [call] at same
      exact (same (locks_setCrit s c _)).elim
    | take l' again me =>
      have mine := i.self t
      rw [call] at same free mine
      have positive : me ≠ 0 := fun zero => ident_ne_zero known (mine.symm.trans zero)
      simp only [State.tryTake] at same free
      split at free
      · rename_i unowned
        exact absurd (owner_upd owner free).2 positive
      · split at free
        · obtain ⟨is, free⟩ := owner_upd owner free
          rw [is] at owner
          exact absurd free owner
        · exact absurd free owner
    | refused l' again =>
      rw [call] at same free
      cases again with
      | false => exact (same leave).elim
      | true =>
        have free : (upd (s.critLeave c).locks l' { s.locks l' with
          waits := ((s.locks l').waits + 1) % 2 ^ 32 } l).owner = 0 := free
        rw [leave] at free
        obtain ⟨is, free⟩ := owner_upd owner free
        rw [is] at owner
        exact absurd free owner
    | wait l' =>
      rw [call] at same
      exact (same rfl).elim
    | free l' =>
      rw [call] at free
      simp only [State.tryFree] at free
      split at free
      · rename_i held
        have mine := ((i.owned l').mine known (held.1.trans (i.me_eq on))).2.1
        obtain ⟨is, free⟩ := owner_upd owner free
        subst is
        have free : (if (s.locks l).depth - 1 = 0 then 0 else (s.locks l).owner) = 0 := free
        split at free
        · exact ⟨rfl, by omega⟩
        · exact absurd free owner
      · exact absurd free owner
    | leave =>
      rw [call] at same
      exact (same leave).elim
  | critEnter c =>
    obtain ⟨t, _, rfl⟩ := Option.map_eq_some_iff.mp taken
    exact (same (locks_setCrit s c _)).elim
  | critLeave c =>
    obtain ⟨t, _, rfl⟩ := Option.map_eq_some_iff.mp taken
    exact (same (critLeave_same s c).2.2.1).elim
  | taskInit =>
    simp only [Lock.step] at taken
    split at taken
    · cases taken
    · obtain ⟨t, _, rfl⟩ := Option.map_eq_some_iff.mp taken
      exact (same rfl).elim
  | spawn =>
    simp only [Lock.step] at taken
    split at taken
    · obtain rfl := Option.some.inj taken
      exact (same rfl).elim
    · cases taken
  | reschedule c next =>
    simp only [Lock.step] at taken
    split at taken
    · obtain rfl := Option.some.inj taken
      exact (same rfl).elim
    · cases taken
  | force c =>
    obtain ⟨t, _, rfl⟩ := Option.map_eq_some_iff.mp taken
    exact (same rfl).elim
  | taskExit c =>
    simp only [Lock.step] at taken
    split at taken
    · obtain ⟨t, _, rfl⟩ := Option.map_eq_some_iff.mp taken
      exact (same rfl).elim
    · cases taken

/-- In every steady run, one task at most has a lock; the lock is free when no task has it, and becomes free
only when its task releases its last level; and the count of a task is the sum of the depths of the locks it
owns, of its other critical sections, and of the mark of the call that it is in. -/
theorem lock_safety (run : Run step Steady (start L) s) :
    (∀ t t' l, s.Holds t l → s.Holds t' l → t = t') ∧
    (∀ l, (s.locks l).owner = 0 ↔ ∀ t, ¬s.Holds t l) ∧
    (∀ e s' l, step s e = some s' → (s.locks l).owner ≠ 0 → (s'.locks l).owner = 0 →
      ∃ c t, e = .go c ∧ t ∈ s.runs c ∧ s.call t = .free l ∧ s.got t l = 1) ∧
    ∀ t, s.Known t → s.count t = ∑ l, s.levels t l + s.marks t + (s.call t).counted := by
  have i : s.Sound :=
    run.invariant (P := fun t => t.Sound) sound_start fun _ _ _ i steady taken => i.step steady taken
  refine ⟨fun t t' l has has' => ?_, fun l => ⟨fun free t has => ?_, fun none_ => ?_⟩,
    fun e s' l taken owner free => i.freed taken owner free, fun t known => ?_⟩
  · rcases i.owned l with ⟨_, none_⟩ | ⟨t₀, _, _, _, _, others⟩
    · exact absurd (none_ t) (Nat.pos_iff_ne_zero.mp has)
    · have first : t = t₀ := by
        by_contra ne
        exact absurd (others t ne) (Nat.pos_iff_ne_zero.mp has)
      have second : t' = t₀ := by
        by_contra ne
        exact absurd (others t' ne) (Nat.pos_iff_ne_zero.mp has')
      rw [first, second]
  · rcases i.owned l with ⟨_, none_⟩ | ⟨t₀, known, owner, _⟩
    · exact absurd (none_ t) (Nat.pos_iff_ne_zero.mp has)
    · exact absurd (owner.symm.trans free) (ident_ne_zero known)
  · rcases i.owned l with ⟨free, _⟩ | ⟨t₀, _, _, has, _⟩
    · exact free
    · exact absurd has (none_ t₀)
  · rw [Finset.sum_congr rfl fun l _ => i.levels_eq known l]
    exact i.count t known

/-- A lock that the thread of the start takes twice and releases, and then the scheduler. -/
def nested : List (Event Unit) :=
  let c : Fin 2 := ⟨0, Nat.two_pos⟩
  [.lockTry c (), .go c, .go c, .lockAcquire c (), .go c, .go c, .lockRelease c (), .go c, .go c,
    .lockRelease c (), .go c, .go c, .taskInit, .lockTry c (), .go c, .go c]

theorem lock_safety_nested : ∃ s : State Unit,
    (∀ t t' l, s.Holds t l → s.Holds t' l → t = t') ∧
    (∀ l, (s.locks l).owner = 0 ↔ ∀ t, ¬s.Holds t l) ∧
    (∀ e s' l, step s e = some s' → (s.locks l).owner ≠ 0 → (s'.locks l).owner = 0 →
      ∃ c t, e = .go c ∧ t ∈ s.runs c ∧ s.call t = .free l ∧ s.got t l = 1) ∧
    ∀ t, s.Known t → s.count t = ∑ l, s.levels t l + s.marks t + (s.call t).counted :=
  ⟨_, lock_safety (Run.of_exec_get (show (exec step (start Unit) nested).isSome = true by decide +kernel)
    (by decide +kernel))⟩

/-- The count is ahead while `lock_try` has not taken the lock yet; and a lock that is held when the scheduler
starts is not freed by its holder. -/
theorem not_all_locks_safe :
    (¬∀ (events : List (Event Unit)) (s : State Unit), exec step (start Unit) events = some s →
      ∀ t, s.Known t → s.count t = ∑ l, s.levels t l) ∧
    ¬∀ (events : List (Event Unit)) (s s' : State Unit) (c : Fin 2) (t : Nat) (l : Unit),
      exec step (start Unit) events = some s → t ∈ s.runs c → s.call t = .free l → s.got t l = 1 →
        step s (.go c) = some s' → (s'.locks l).owner = 0 := by
  refine ⟨fun even => ?_, fun frees => ?_⟩
  · have count := even [.lockTry 0 (), .go 0] _ rfl 1 rfl
    exact absurd count (by decide +kernel)
  · have free := frees [.lockTry 0 (), .go 0, .go 0, .taskInit, .lockRelease 0 ()] _ _ 0 1 () rfl rfl rfl rfl rfl
    exact absurd free (by decide +kernel)

end RPCortex.Lock
