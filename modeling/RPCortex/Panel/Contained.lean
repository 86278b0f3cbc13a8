import RPCortex.Panel.Screens

/-! The lock holds: what is done on the lock and on its entry screens keeps the lock on the stack, with everything
under it as it was. -/

namespace RPCortex.Panel

open Lib Gesture

variable {β : Type} {apps : Apps β} {s s' : Gui β} {base below : List (Screen β)} {x : Screen β} {e : Event}

/-- An entry screen of the lock. -/
def Screen.entry : Screen β → Bool
  | .keyboard _ => true
  | .pin _ => true
  | _ => false

/-- The lock is up: the stack is as when it was engaged, or has an entry screen besides. -/
structure Contained (base : List (Screen β)) (s : Gui β) : Prop where
  lock : ∃ below, base = .lock :: below
  stack : s.stack = base ∨ ∃ x : Screen β, x.entry = true ∧ s.stack = x :: base
  armed : s.reg.armed = true
  locked : s.locked = true
  shut : s.lockPass = false
  depth : s.lockDepth = base.length
  untouched : s.touched = false
  power : s.power = false

theorem onTop_entry {f : β → β} (top : s.stack = x :: below) (entry : x.entry = true) : s.onTop f = s := by
  unfold Gui.onTop
  rw [top]
  cases x with
  | other b => cases entry
  | lock => cases entry
  | keyboard k => rfl
  | pin p => rfl

theorem onTop_lock {f : β → β} (top : s.stack = .lock :: below) : s.onTop f = s := by
  unfold Gui.onTop
  rw [top]

theorem pop_entry (lock : base = .lock :: below) (top : s.stack = x :: base) (entry : x.entry = true) :
    s.pop apps = { s with stack := base } := by
  have long : ¬s.stack.length ≤ 1 := by
    rw [top, lock]
    simp
  unfold Gui.pop
  rw [if_neg long]
  simp only
  rw [onTop_entry top entry, top, List.tail_cons]
  exact onTop_lock lock

theorem Contained.pop (h : Contained base s) (top : s.stack = x :: base) (entry : x.entry = true) :
    Contained base (s.pop apps) := by
  obtain ⟨below, lock⟩ := h.lock
  rw [pop_entry lock top entry]
  exact ⟨⟨below, lock⟩, Or.inl rfl, h.armed, h.locked, h.shut, h.depth, h.untouched, h.power⟩

/-- Home is the lock. -/
theorem Contained.goHome (h : Contained base s) : Contained base (s.goHome apps) := by
  obtain ⟨below, lock⟩ := h.lock
  have pos : 1 ≤ base.length := by
    rw [lock]
    exact Nat.succ_pos _
  have floor : max s.lockFloor 1 = base.length := by
    rw [Gui.lockFloor, h.locked, h.depth]
    exact Nat.max_eq_left pos
  unfold Gui.goHome
  rw [floor]
  rcases h.stack with same | ⟨x, entry, top⟩
  · rw [same, Nat.sub_self]
    exact h
  · rw [top, List.length_cons, Nat.add_sub_cancel_left]
    exact h.pop top entry

theorem Contained.answer (h : Contained base s) {a : Answer} (top : s.stack = x :: base) (entry : x.entry = true) :
    Contained base (s.answer apps false e a) := by
  unfold Gui.answer
  split
  · exact h
  · exact h.pop top entry
  · exact h.goHome

/-- A text that is not the code is counted. -/
theorem Contained.typed (h : Contained base s) {text : Option (List UInt8)} (wrong : text ≠ some s.reg.want) :
    Contained base (s.typed text) ∧ (s.typed text).stack = s.stack := by
  cases text with
  | none => exact ⟨h, rfl⟩
  | some text =>
    have no : ¬(s.reg.want ≠ [] ∧ text = s.reg.want) := fun both => wrong (congrArg some both.2)
    have counted : s.typed (some text) = { s with lockTries := s.lockTries + 1 } := if_neg no
    rw [counted]
    exact ⟨⟨h.lock, h.stack, h.armed, h.locked, h.shut, h.depth, h.untouched, h.power⟩, rfl⟩

/-- The entry screen on top changes. -/
theorem Contained.entered (h : Contained base s) (entry : x.entry = true) : Contained base { s with stack := x :: base } :=
  ⟨h.lock, Or.inr ⟨x, entry, rfl⟩, h.armed, h.locked, h.shut, h.depth, h.untouched, h.power⟩

/-- The lock opens an entry screen, and does nothing else. -/
theorem Contained.onEvent_lock (h : Contained base s) (top : s.stack = base) :
    Contained base (s.onEvent apps e).1 ∧ (s.onEvent apps e).2 = .stay := by
  obtain ⟨below, lock⟩ := h.lock
  have pushes {y : Screen β} (entry : y.entry = true) : Contained base (s.push apps y) := by
    unfold Gui.push
    simp only
    rw [onTop_lock (top.trans lock), top]
    exact h.entered entry
  have stack := top.trans lock
  unfold Gui.onEvent
  rw [stack]
  simp only
  split
  · split
    · exact ⟨pushes rfl, rfl⟩
    · exact ⟨pushes rfl, rfl⟩
  · exact ⟨h, rfl⟩

/-- An entry screen stays what it is, and hands over a text that is not the code. -/
theorem Contained.onEvent_entry (h : Contained base s) (top : s.stack = x :: base) (entry : x.entry = true)
    (wrong : s.submits e ≠ some s.reg.want) :
    Contained base (s.onEvent apps e).1 ∧ ∃ y, Screen.entry y = true ∧ (s.onEvent apps e).1.stack = y :: base := by
  unfold Gui.submits at wrong
  unfold Gui.onEvent
  rw [top] at wrong ⊢
  cases x with
  | other b => cases entry
  | lock => cases entry
  | keyboard k =>
    simp only at wrong ⊢
    have next : Contained base { s with stack := .keyboard (k.onEvent e).1 :: base } := h.entered rfl
    obtain ⟨counted, same⟩ := next.typed wrong
    exact ⟨counted, _, rfl, same⟩
  | pin p =>
    simp only at wrong ⊢
    have next : Contained base { s with stack := .pin (p.onEvent e).1 :: base } := h.entered rfl
    obtain ⟨counted, same⟩ := next.typed wrong
    exact ⟨counted, _, rfl, same⟩

theorem Contained.handle (h : Contained base s) (wrong : s.active = true → s.submits e ≠ some s.reg.want) :
    Contained base (s.handle apps e) := by
  unfold Gui.handle
  split
  · exact ⟨h.lock, h.stack, h.armed, h.locked, h.shut, h.depth, h.untouched, h.power⟩
  rename_i lit
  have wrong := wrong (by simpa using lit)
  split
  · rename_i power
    exact absurd (h.locked.symm.trans power.2) (by decide)
  rcases h.stack with same | ⟨x, entry, top⟩
  · obtain ⟨below, lock⟩ := h.lock
    obtain ⟨next, stay⟩ := h.onEvent_lock (e := e) same
    have stack := same.trans lock
    rw [stack]
    simp only
    rw [stay]
    unfold Gui.answer
    have modal : (Screen.lock : Screen β).modal apps = true := rfl
    rw [modal, if_neg (by simp)]
    exact next
  · obtain ⟨next, y, entry', top'⟩ := h.onEvent_entry top entry wrong
    rw [top]
    simp only
    have modal : x.modal apps = false := by
      cases x with
      | other b => cases entry
      | lock => cases entry
      | keyboard k => rfl
      | pin p => rfl
    rw [modal]
    exact next.answer top' entry'

theorem Contained.gesture (h : Contained base s) (wrong : s.active = true → s.submits e ≠ some s.reg.want) :
    Contained base (s.gesture apps e) := by
  unfold Gui.gesture
  split
  · exact h
  · have h' : Contained base { s with turned := s.turned || Gui.isTurn e } :=
      ⟨h.lock, h.stack, h.armed, h.locked, h.shut, h.depth, h.untouched, h.power⟩
    exact h'.handle wrong

theorem Contained.tick (h : Contained base s) (dt : Nat) : Contained base (s.tick apps dt) := by
  unfold Gui.tick
  rcases h.stack with same | ⟨x, entry, top⟩
  · obtain ⟨below, lock⟩ := h.lock
    have stack := same.trans lock
    rw [stack]
    simp only
    rw [if_pos ⟨h.shut, h.armed⟩]
    exact h
  · rw [top]
    cases x with
    | other b => cases entry
    | lock => cases entry
    | keyboard k => exact h.entered rfl
    | pin p => exact h

theorem Contained.step {a : Action} (h : Contained base s) (guarded : Guarded s a) (taken : step apps s a = some s') :
    Contained base s' := by
  cases a with
  | drain wake =>
    obtain rfl := Option.some.inj taken
    exact ⟨h.lock, h.stack, h.armed, h.locked, h.shut, h.depth, h.untouched, h.power⟩
  | gesture e =>
    obtain rfl := Option.some.inj taken
    exact h.gesture guarded
  | tick dt =>
    obtain rfl := Option.some.inj taken
    exact h.tick dt
  | frame active due =>
    obtain rfl := Option.some.inj taken
    have level : Contained base { s with active := active } :=
      ⟨h.lock, h.stack, h.armed, h.locked, h.shut, h.depth, h.untouched, h.power⟩
    cases due with
    | false => exact level
    | true =>
      have same : ({ s with active := active } : Gui β).lockEngage apps = { s with active := active } := by
        unfold Gui.lockEngage
        rw [level.locked]
        rfl
      rw [if_pos rfl, same]
      exact level
  | configure reg =>
    obtain rfl := Option.some.inj taken
    exact ⟨h.lock, h.stack, guarded, h.locked, h.shut, h.depth, h.untouched, h.power⟩

/-- A lock that was engaged is on top of what was there. -/
theorem lockEngage_contained {g : Gui β} (free : g.locked = false) (engaged : (g.lockEngage apps).locked = true) :
    Contained (g.lockEngage apps).stack { g.lockEngage apps with touched := false, power := false } := by
  have armed : g.reg.armed = true := by
    by_contra no
    have same : g.lockEngage apps = g := by
      unfold Gui.lockEngage
      rw [Bool.eq_false_iff.mpr no]
      simp
    rw [same, free] at engaged
    cases engaged
  have goes : ¬(g.locked || !g.reg.armed) = true := by simp [free, armed]
  unfold Gui.lockEngage at engaged ⊢
  rw [if_neg goes] at engaged ⊢
  split at engaged
  · exact absurd (free.symm.trans engaged) (by decide)
  rename_i plain
  rw [if_neg plain]
  split at engaged
  · exact absurd (free.symm.trans engaged) (by decide)
  rename_i room
  rw [if_neg room]
  have keeps (f : β → β) (u : Gui β) : (u.onTop f).reg = u.reg ∧ (u.onTop f).lockPass = u.lockPass := by
    unfold Gui.onTop
    split
    · exact ⟨rfl, rfl⟩
    · exact ⟨rfl, rfl⟩
  refine ⟨⟨_, rfl⟩, Or.inl rfl, ?_, rfl, ?_, rfl, rfl, rfl⟩
  · show ((Gui.onTop { g with lockPass := false } apps.leave).reg).armed = true
    rw [(keeps _ _).1]
    exact armed
  · exact (keeps _ _).2

/-- From any stack on which the lock was engaged, whatever the gestures and the ticks, the lock and all that is under
it stay on the stack, no screen under it is handed anything, and the power menu does not open, as long as a code is
configured and no text that is entered is the code. -/
theorem lock_contains {g : Gui β} (free : g.locked = false) (engaged : (g.lockEngage apps).locked = true)
    (run : Run (step apps) Guarded { g.lockEngage apps with touched := false, power := false } s) :
    (∃ above : List (Screen β), s.stack = above ++ (g.lockEngage apps).stack ∧ ∀ x ∈ above, x.entry = true) ∧
    (∃ below, (g.lockEngage apps).stack = .lock :: below) ∧ s.locked = true ∧ s.touched = false ∧ s.power = false := by
  have h : Contained (g.lockEngage apps).stack s := run.invariant (P := Contained (g.lockEngage apps).stack)
    (lockEngage_contained free engaged) fun _ _ _ h guarded taken => h.step guarded taken
  refine ⟨?_, h.lock, h.locked, h.untouched, h.power⟩
  rcases h.stack with same | ⟨x, entry, top⟩
  · exact ⟨[], same, fun _ no => absurd no List.not_mem_nil⟩
  · refine ⟨[x], top, fun y mem => ?_⟩
    rw [List.mem_singleton.mp mem]
    exact entry

/-! ### A run -/

/-- Other screens that count what reaches them. -/
def counting : Apps Nat where
  onEvent _ _ s := (s, .stay)
  tick _ _ s := s
  enter n := n + 1
  leave n := n + 1
  modal _ := false
  isPower _ := false
  openPower s := { s with stack := .other 0 :: s.stack }

/-- Two screens, and a PIN. -/
def twoScreens : Gui Nat where
  stack := [.other 0, .other 0]
  reg := ⟨.pin, [], [0x31, 0x32, 0x33, 0x34, 0x35, 0x36]⟩
  locked := false
  lockPass := false
  lockTries := 0
  lockDepth := 1
  active := true
  turned := false
  touched := false
  power := false

/-- The pad is opened, turned and entered by a press of home; home is held, the panel goes dark and wakes; with a
password, the keyboard is opened and left by home. -/
def prying : List Action :=
  [.drain false, .gesture .select, .gesture .rotCw, .gesture .rotCcw, .gesture .select, .gesture .home, .tick 40,
    .frame false true, .drain true, .gesture .homeHold, .gesture .home, .gesture .back, .frame true true,
    .configure ⟨.password, [0x61, 0x62], []⟩, .drain false, .gesture .select, .gesture .select, .tick 500,
    .gesture .home, .gesture .select, .gesture .selectHold, .tick 40]

theorem lock_contains_prying : ∃ s, Run (step counting) Guarded
      { twoScreens.lockEngage counting with touched := false, power := false } s ∧
    ((∃ above : List (Screen Nat), s.stack = above ++ (twoScreens.lockEngage counting).stack ∧
      ∀ x ∈ above, x.entry = true) ∧
    (∃ below, (twoScreens.lockEngage counting).stack = .lock :: below) ∧ s.locked = true ∧ s.touched = false ∧
      s.power = false) := by
  have ends : (exec (step counting) { twoScreens.lockEngage counting with touched := false, power := false }
      prying).isSome = true := by decide +kernel
  have run : Run (step counting) Guarded { twoScreens.lockEngage counting with touched := false, power := false }
      ((exec (step counting) { twoScreens.lockEngage counting with touched := false, power := false } prying).get
        ends) := Run.of_exec_get ends (by decide +kernel)
  exact ⟨_, run, lock_contains rfl (by decide +kernel) run⟩

end RPCortex.Panel
