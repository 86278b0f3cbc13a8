import RPCortex.Panel.Contained

/-! The lock opens: SELECT on the lock brings an entry screen up, every code that has keys can be entered there, and the
code takes the lock off the stack.  The entry screen needs a slot of its own. -/

namespace RPCortex.Panel

open Lib Gesture

variable {β : Type} {apps : Apps β} {s g : Gui β} {base below : List (Screen β)} {x : Screen β} {e : Event}

/-- An entry screen on top of the lock, on a panel that is lit. -/
structure Entering (base : List (Screen β)) (s : Gui β) : Prop where
  top : ∃ x : Screen β, x.entry = true ∧ s.stack = x :: base
  lit : s.active = true
  locked : s.locked = true
  depth : s.lockDepth = base.length

/-- The lock was engaged, and a panel that had gone dark is woken. -/
def Gui.engaged (apps : Apps β) (g : Gui β) : Gui β := { g.lockEngage apps with active := true }

/-- The screens of a stack when the one on top has been left and entered again. -/
def Gui.resumed (apps : Apps β) (g : Gui β) : List (Screen β) := ((g.onTop apps.leave).onTop apps.enter).stack

/-! ### What can be entered -/

/-- A letter that the keyboard has a key for. -/
def Typable (c : UInt8) : Prop :=
  c = 0x20 ∨ ∃ key < kbKeys, c = kRows.getD key 0 ∨
    0x61 ≤ kRows.getD key 0 ∧ kRows.getD key 0 ≤ 0x7A ∧ c = kRows.getD key 0 - 32

/-- A code that can be entered: a password of the keyboard's letters that fits, or six digits. -/
def Enterable (r : LockReg) : Prop :=
  r.state = .password ∧ r.pass.length < textMax ∧ (∀ c ∈ r.pass, Typable c) ∨
    r.state = .pin ∧ ∃ digit : List Nat, digit.length = 6 ∧ (∀ d ∈ digit, d < 10) ∧ r.pin = Pin.text ⟨digit, 0⟩

/-- The lock can be opened: SELECT brings an entry screen up, the code that is handed over there takes the lock away
at the next tick, with the screens under it as they were, and a code that has keys can be handed over. -/
structure Unlockable (apps : Apps β) (g : Gui β) : Prop where
  opens : ∀ e, e = .select ∨ e = .selectHold →
    Entering (g.lockEngage apps).stack ((g.engaged apps).handle apps e)
  enters : ∀ s e dt, Entering (g.lockEngage apps).stack s → s.submits e = some s.reg.want →
    ((s.handle apps e).tick apps dt).stack = g.resumed apps ∧ ((s.handle apps e).tick apps dt).locked = false
  enterable : Enterable g.reg → ∃ s, Run (step apps) Guarded ((g.engaged apps).handle apps .select) s ∧
    Entering (g.lockEngage apps).stack s ∧ s.submits .selectHold = some g.reg.want ∧ s.reg = g.reg

/-! ### Keys -/

/-- What the gestures of an entry screen can make of it that neither leave it nor hand anything over. -/
inductive Keyed {κ : Type} (on : κ → Event → κ × Answer × Option (List UInt8)) (k : κ) : κ → Prop
  | refl : Keyed on k k
  | tail {l : κ} {e : Event} (keyed : Keyed on k l) (plain : (on l e).2 = (.stay, none))
      (button : e ≠ .home ∧ e ≠ .homeHold) : Keyed on k (on l e).1

theorem Keyed.trans {κ : Type} {on : κ → Event → κ × Answer × Option (List UInt8)} {k l m : κ}
    (kl : Keyed on k l) (lm : Keyed on l m) : Keyed on k m := by
  induction lm with
  | refl => exact kl
  | tail _ plain button ih => exact ih.tail plain button

namespace Keyboard

/-- Turning far enough brings the mark to any key. -/
theorem keyed_sel (k : Keyboard) {key : Nat} (lt : key < keyCount) : Keyed onEvent k { k with sel := key } := by
  have turns : ∀ n, Keyed onEvent k { k with sel := (k.sel + (n + 1)) % keyCount } := by
    intro n
    induction n with
    | zero => exact Keyed.refl.tail (e := .rotCw) rfl (by decide)
    | succ n ih =>
      have next := ih.tail (e := .rotCw) rfl (by decide)
      have sel : (((k.sel + (n + 1)) % keyCount) + 1) % keyCount = (k.sel + (n + 1 + 1)) % keyCount := by
        rw [Nat.mod_add_mod, Nat.add_assoc]
      simpa only [onEvent, sel] using next
  have enough := turns (key + keyCount - k.sel % keyCount - 1)
  have reached : (k.sel + (key + keyCount - k.sel % keyCount - 1 + 1)) % keyCount = key := by
    have mod := Nat.mod_lt k.sel (show 0 < keyCount by decide)
    unfold keyCount kbKeys at *
    omega
  rwa [reached] at enough

theorem keyed_shift (k : Keyboard) (b : Bool) : ∃ sel, Keyed onEvent k { k with sel := sel, shift := b } := by
  by_cases same : k.shift = b
  · subst same
    exact ⟨k.sel, .refl⟩
  · have pressed := (k.keyed_sel (show kbKeys < keyCount by decide)).tail (e := .select) rfl (by decide)
    have flipped : (!k.shift) = b := by
      cases hs : k.shift <;> cases b <;> simp_all
    refine ⟨kbKeys, ?_⟩
    rw [← flipped]
    exact pressed

/-- Every letter with a key can be typed behind the text. -/
theorem keyed_type (k : Keyboard) {c : UInt8} (typable : Typable c) (room : k.text.length + 1 < textMax) :
    ∃ l, Keyed onEvent k l ∧ l.text = k.text ++ [c] := by
  have full : ¬textMax ≤ k.text.length + 1 := by omega
  have row (key : Nat) (lt : key < kbKeys) (b : Bool) :
      ∃ l, Keyed onEvent k l ∧ l.text = k.text ++ [if b && 0x61 ≤ kRows.getD key 0 && kRows.getD key 0 ≤ 0x7A then
        kRows.getD key 0 - 32 else kRows.getD key 0] := by
    obtain ⟨sel, shifted⟩ := k.keyed_shift b
    have marked := shifted.trans (keyed_sel _ (show key < keyCount from lt.trans (by decide)))
    have letter : ({ k with sel := key, shift := b } : Keyboard).onEvent .select =
        (({ k with sel := key, shift := b } : Keyboard).type (kRows.getD key 0), .stay, none) := if_pos lt
    refine ⟨_, marked.tail (e := .select) (by rw [letter]) (by decide), ?_⟩
    rw [letter, type, if_neg full]
  rcases typable with rfl | ⟨key, lt, rfl | ⟨low, high, rfl⟩⟩
  · have marked := k.keyed_sel (show kbKeys + 1 < keyCount by decide)
    refine ⟨_, marked.tail (e := .select) rfl (by decide), ?_⟩
    have space : (({ k with sel := kbKeys + 1 } : Keyboard).onEvent .select).1 =
        ({ k with sel := kbKeys + 1 } : Keyboard).type 0x20 := rfl
    rw [space, type, if_neg full, if_neg (by simp)]
  · simpa using row key lt false
  · obtain ⟨l, keyed, text⟩ := row key lt true
    rw [if_pos (by rw [Bool.true_and, Bool.and_eq_true, decide_eq_true_iff, decide_eq_true_iff]; exact ⟨low, high⟩)] at text
    exact ⟨l, keyed, text⟩

theorem keyed_text {text : List UInt8} (typable : ∀ c ∈ text, Typable c) (fits : text.length < textMax) :
    ∃ k, Keyed onEvent begin_ k ∧ k.text = text := by
  induction text using List.reverseRecOn with
  | nil => exact ⟨begin_, .refl, rfl⟩
  | append_singleton text c ih =>
    rw [List.length_append, List.length_singleton] at fits
    obtain ⟨k, keyed, rfl⟩ := ih (fun c mem => typable c (List.mem_append_left _ mem)) (by omega)
    obtain ⟨l, typed, text⟩ := k.keyed_type (typable c (by simp)) fits
    exact ⟨l, keyed.trans typed, text⟩

end Keyboard

namespace Pin

/-- A digit is turned to any value, and the mark goes on. -/
theorem keyed_digit (p : Pin) {d : Nat} (lt : d < 10) (inside : p.pos < p.digit.length) :
    Keyed onEvent p ⟨p.digit.set p.pos d, (p.pos + 1) % 6⟩ := by
  have turns : ∀ n, Keyed onEvent p { p with digit := p.digit.set p.pos ((p.digit.getD p.pos 0 + (n + 1)) % 10) } := by
    intro n
    induction n with
    | zero => exact Keyed.refl.tail (e := .rotCw) rfl (by decide)
    | succ n ih =>
      have next := ih.tail (e := .rotCw) rfl (by decide)
      have digit : ((p.digit.set p.pos ((p.digit.getD p.pos 0 + (n + 1)) % 10)).getD p.pos 0 + 1) % 10 =
          (p.digit.getD p.pos 0 + (n + 1 + 1)) % 10 := by
        rw [List.getD_eq_getElem _ _ (by simpa using inside), List.getElem_set_self, Nat.mod_add_mod, Nat.add_assoc]
      simpa only [onEvent, turn, digit, List.set_set] using next
  have enough := turns (d + 10 - p.digit.getD p.pos 0 % 10 - 1)
  have reached : (p.digit.getD p.pos 0 + (d + 10 - p.digit.getD p.pos 0 % 10 - 1 + 1)) % 10 = d := by omega
  rw [reached] at enough
  exact enough.tail (e := .select) rfl (by decide)

theorem keyed_text {digit : List Nat} (six : digit.length = 6) (digits : ∀ d ∈ digit, d < 10) :
    Keyed onEvent begin_ ⟨digit, 0⟩ := by
  obtain ⟨a, digit, rfl⟩ := List.exists_cons_of_length_eq_add_one six
  obtain ⟨b, digit, rfl⟩ := List.exists_cons_of_length_eq_add_one (Nat.succ.inj six)
  obtain ⟨c, digit, rfl⟩ := List.exists_cons_of_length_eq_add_one (Nat.succ.inj (Nat.succ.inj six))
  obtain ⟨d, digit, rfl⟩ := List.exists_cons_of_length_eq_add_one (Nat.succ.inj (Nat.succ.inj (Nat.succ.inj six)))
  simp only [List.length_cons] at six
  obtain ⟨e, f, rfl⟩ := List.length_eq_two.mp (show digit.length = 2 by omega)
  have first : Keyed onEvent begin_ ⟨[a, 0, 0, 0, 0, 0], 1⟩ :=
    keyed_digit begin_ (digits a (by simp)) (by decide)
  have second : Keyed onEvent begin_ ⟨[a, b, 0, 0, 0, 0], 2⟩ :=
    first.trans (keyed_digit ⟨[a, 0, 0, 0, 0, 0], 1⟩ (digits b (by simp)) (by simp))
  have third : Keyed onEvent begin_ ⟨[a, b, c, 0, 0, 0], 3⟩ :=
    second.trans (keyed_digit ⟨[a, b, 0, 0, 0, 0], 2⟩ (digits c (by simp)) (by simp))
  have fourth : Keyed onEvent begin_ ⟨[a, b, c, d, 0, 0], 4⟩ :=
    third.trans (keyed_digit ⟨[a, b, c, 0, 0, 0], 3⟩ (digits d (by simp)) (by simp))
  have fifth : Keyed onEvent begin_ ⟨[a, b, c, d, e, 0], 5⟩ :=
    fourth.trans (keyed_digit ⟨[a, b, c, d, 0, 0], 4⟩ (digits e (by simp)) (by simp))
  have sixth : Keyed onEvent begin_ ⟨[a, b, c, d, e, f], (5 + 1) % 6⟩ :=
    fifth.trans (keyed_digit ⟨[a, b, c, d, e, 0], 5⟩ (digits f (by simp)) (by simp))
  exact sixth

end Pin

/-! ### The lock on the stack -/

/-- A code that is configured is not empty. -/
theorem LockReg.want_ne_nil {r : LockReg} (armed : r.armed = true) : r.want ≠ [] := by
  unfold LockReg.armed LockReg.state at armed
  unfold LockReg.want LockReg.state
  cases hk : r.kind <;> simp_all

/-- What an engaged lock has made of the state. -/
theorem lockEngage_engaged (free : g.locked = false) (engaged : (g.lockEngage apps).locked = true) :
    g.reg.armed = true ∧ g.stack.length < stackMax ∧
      g.lockEngage apps = { g.onTop apps.leave with
        stack := .lock :: (g.onTop apps.leave).stack
        lockPass := false
        locked := true
        lockDepth := g.stack.length + 1 } := by
  unfold Gui.lockEngage at engaged ⊢
  split at engaged
  · exact absurd (free.symm.trans engaged) (by decide)
  rename_i goes
  split at engaged
  · exact absurd (free.symm.trans engaged) (by decide)
  rename_i plain
  split at engaged
  · exact absurd (free.symm.trans engaged) (by decide)
  rename_i room
  rw [if_neg goes, if_neg plain, if_neg room]
  refine ⟨by simpa [free] using goes, by omega, ?_⟩
  obtain ⟨stack, reg, locked, lockPass, lockTries, lockDepth, active, turned, touched, power⟩ := g
  cases stack with
  | nil => rfl
  | cons x below =>
    cases x with
    | other b => rfl
    | lock => rfl
    | keyboard k => rfl
    | pin p => rfl

/-- A gesture after which the screen on top stays there. -/
theorem handle_stay (top : s.stack = x :: below) (lit : s.active = true) (button : e ≠ .home ∧ e ≠ .homeHold)
    {s' : Gui β} (stays : s.onEvent apps e = (s', .stay)) : s.handle apps e = s' := by
  unfold Gui.handle
  rw [if_neg (by simp [lit]), if_neg fun hold => button.2 hold.1, top]
  dsimp only
  rw [stays]
  unfold Gui.answer
  rw [if_neg fun home => button.1 home.1]

/-- What an entry screen does with keys, the runner does with gestures, one in a pass of `drain_input`. -/
theorem run_keyed {κ : Type} {on : κ → Event → κ × Answer × Option (List UInt8)} {wrap : κ → Screen β} {k l : κ}
    (acts : ∀ (s : Gui β) k e, s.stack = wrap k :: base → (on k e).2 = (.stay, none) →
      s.onEvent apps e = ({ s with stack := wrap (on k e).1 :: base }, .stay) ∧ s.submits e = none)
    (keyed : Keyed on k l) (top : s.stack = wrap k :: base) (lit : s.active = true) :
    ∃ s', Run (step apps) Guarded s s' ∧ s'.stack = wrap l :: base ∧ s'.active = true ∧ s'.locked = s.locked ∧
      s'.lockDepth = s.lockDepth ∧ s'.reg = s.reg := by
  induction keyed with
  | refl => exact ⟨s, .refl, top, lit, rfl, rfl, rfl⟩
  | @tail l e keyed plain button ih =>
    obtain ⟨t, run, stack, active, locked, depth, reg⟩ := ih
    obtain ⟨u, drain⟩ : ∃ u : Gui β, u = { t with turned := false, active := t.active || false } := ⟨_, rfl⟩
    have drained : Run (step apps) Guarded s u := by
      rw [drain]
      exact run.tail (a := .drain false) trivial rfl
    have top' : u.stack = wrap l :: base := by rw [drain, ← stack]
    have lit' : u.active = true := by rw [drain, active, Bool.true_or]
    have turned : u.turned = false := by rw [drain]
    have gesture : u.gesture apps e = { u with turned := Gui.isTurn e, stack := wrap (on l e).1 :: base } := by
      unfold Gui.gesture
      rw [turned, Bool.and_false, if_neg Bool.false_ne_true, Bool.false_or]
      exact @handle_stay _ _ { u with turned := Gui.isTurn e } _ _ _ top' lit' button _
        (acts { u with turned := Gui.isTurn e } l e top' plain).1
    refine ⟨_, drained.tail (a := .gesture e) ?_ rfl, ?_⟩
    · show u.active = true → u.submits e ≠ _
      intro _
      rw [(acts u l e top' plain).2]
      exact (Option.some_ne_none _).symm
    · rw [gesture]
      refine ⟨rfl, lit', ?_, ?_, ?_⟩
      · rw [drain, ← locked]
      · rw [drain, ← depth]
      · rw [drain, ← reg]

theorem keyboard_acts (s : Gui β) (k : Keyboard) (e : Event) (top : s.stack = .keyboard k :: base)
    (plain : (k.onEvent e).2 = (.stay, none)) :
    s.onEvent apps e = ({ s with stack := .keyboard (k.onEvent e).1 :: base }, .stay) ∧ s.submits e = none := by
  have stays : _ = Answer.stay := congrArg Prod.fst plain
  have nothing : _ = none := congrArg Prod.snd plain
  unfold Gui.onEvent Gui.submits
  rw [top]
  dsimp only
  rw [stays, nothing]
  exact ⟨rfl, rfl⟩

theorem pin_acts (s : Gui β) (p : Pin) (e : Event) (top : s.stack = .pin p :: base)
    (plain : (p.onEvent e).2 = (.stay, none)) :
    s.onEvent apps e = ({ s with stack := .pin (p.onEvent e).1 :: base }, .stay) ∧ s.submits e = none := by
  have stays : _ = Answer.stay := congrArg Prod.fst plain
  have nothing : _ = none := congrArg Prod.snd plain
  unfold Gui.onEvent Gui.submits
  rw [top]
  dsimp only
  rw [stays, nothing]
  exact ⟨rfl, rfl⟩

/-- SELECT on the lock, when there is a slot for the entry screen. -/
theorem handle_lock (top : s.stack = .lock :: below) (lit : s.active = true) (select : e = .select ∨ e = .selectHold)
    (room : s.stack.length < stackMax) :
    s.handle apps e = { s with
      stack := (if s.reg.state = .password then .keyboard .begin_ else .pin .begin_) :: s.stack } := by
  refine handle_stay top lit (by rcases select with rfl | rfl <;> decide) ?_
  unfold Gui.onEvent
  rw [top] at room ⊢
  dsimp only
  rw [if_pos ⟨select, room⟩]
  have pushed (y : Screen β) : s.push apps y = { s with stack := y :: .lock :: below } := by
    unfold Gui.push
    dsimp only
    rw [onTop_lock top, top]
  split
  · rw [pushed]
  · rw [pushed]

/-- Without one, nothing happens. -/
theorem handle_lock_full (top : s.stack = .lock :: below) (lit : s.active = true)
    (full : ¬s.stack.length < stackMax) : s.handle apps .select = s := by
  refine handle_stay top lit (by decide) ?_
  unfold Gui.onEvent
  rw [top] at full ⊢
  exact if_neg fun both => full both.2

theorem Keyboard.onEvent_submits {k : Keyboard} {text : List UInt8} (submits : (k.onEvent e).2.2 = some text) :
    k.onEvent e = (k, .back, some text) ∧ e ≠ .home ∧ e ≠ .homeHold := by
  cases e with
  | select =>
    simp only [Keyboard.onEvent] at submits ⊢
    split_ifs at submits ⊢ with letter shift space delete
    refine ⟨?_, by decide, by decide⟩
    rw [← submits]
  | selectHold =>
    refine ⟨?_, by decide, by decide⟩
    rw [← submits]
    rfl
  | back =>
    simp only [Keyboard.onEvent] at submits
    split at submits <;> cases submits
  | rotCw => cases submits
  | rotCcw => cases submits
  | home => cases submits
  | homeHold => cases submits

theorem Pin.onEvent_submits {p : Pin} {text : List UInt8} (submits : (p.onEvent e).2.2 = some text) :
    p.onEvent e = (p, .back, some text) ∧ e ≠ .homeHold := by
  cases e with
  | home =>
    refine ⟨?_, by decide⟩
    rw [← submits]
    rfl
  | selectHold =>
    refine ⟨?_, by decide⟩
    rw [← submits]
    rfl
  | back =>
    simp only [Pin.onEvent] at submits
    split at submits <;> cases submits
  | rotCw => cases submits
  | rotCcw => cases submits
  | select => cases submits
  | homeHold => cases submits

theorem lockTyped_stack (s : Gui β) (stack : List (Screen β)) (text : List UInt8) :
    Gui.lockTyped { s with stack := stack } text = { s.lockTyped text with stack := stack } := by
  unfold Gui.lockTyped
  dsimp only
  split <;> rfl

theorem answer_back (lock : base = .lock :: below) (top : s.stack = x :: base) (entry : x.entry = true)
    (locked : s.locked = true) (depth : s.lockDepth = base.length) :
    s.answer apps false e .back = { s with stack := base } := by
  unfold Gui.answer
  split
  · rename_i stay
    split at stay <;> cases stay
  · exact pop_entry lock top entry
  · have floor : max s.lockFloor 1 = base.length := by
      rw [Gui.lockFloor, locked, depth, lock]
      exact Nat.max_eq_left (Nat.succ_pos _)
    unfold Gui.goHome
    rw [floor, top, List.length_cons, Nat.add_sub_cancel_left]
    exact pop_entry lock top entry

/-- The entry screen is left when it hands something over. -/
theorem handle_submits (entering : Entering base s) (lock : base = .lock :: below) {text : List UInt8}
    (submits : s.submits e = some text) : s.handle apps e = { s.lockTyped text with stack := base } := by
  obtain ⟨⟨x, entry, top⟩, lit, locked, depth⟩ := entering
  have keeps (t : Gui β) : (t.lockTyped text).stack = t.stack ∧ (t.lockTyped text).locked = t.locked ∧
      (t.lockTyped text).lockDepth = t.lockDepth := by
    unfold Gui.lockTyped
    split
    · exact ⟨rfl, rfl, rfl⟩
    · exact ⟨rfl, rfl, rfl⟩
  have left {y : Screen β} (entry : y.entry = true) :
      (Gui.lockTyped { s with stack := y :: base } text).answer apps false e .back =
        { s.lockTyped text with stack := base } := by
    obtain ⟨stack, locked', depth'⟩ := keeps { s with stack := y :: base }
    rw [answer_back lock stack entry (locked'.trans locked) (depth'.trans depth), lockTyped_stack]
  have noHold (hold : e ≠ .homeHold) : ¬(e = .homeHold ∧ s.locked = false) := fun both => hold both.1
  unfold Gui.submits at submits
  unfold Gui.handle
  rw [if_neg (by simp [lit])]
  cases x with
  | other b => cases entry
  | lock => cases entry
  | keyboard k =>
    rw [top] at submits
    obtain ⟨event, -, hold⟩ := Keyboard.onEvent_submits submits
    rw [if_neg (noHold hold), top]
    dsimp only
    unfold Gui.onEvent
    rw [top]
    dsimp only
    rw [event]
    exact left (y := .keyboard k) rfl
  | pin p =>
    rw [top] at submits
    obtain ⟨event, hold⟩ := Pin.onEvent_submits submits
    rw [if_neg (noHold hold), top]
    dsimp only
    unfold Gui.onEvent
    rw [top]
    dsimp only
    rw [event]
    exact left (y := .pin p) rfl

/-- The code on the lock, and the tick after it. -/
theorem tick_submits (entering : Entering base s) (lock : base = .lock :: below)
    (submits : s.submits e = some s.reg.want) (dt : Nat) :
    (s.handle apps e).tick apps dt = Gui.pop apps { s.lockTyped s.reg.want with
      stack := base, lockPass := false, locked := false, lockDepth := 1, lockTries := 0 } := by
  rw [handle_submits entering lock submits]
  unfold Gui.tick
  dsimp only
  rw [lock]
  dsimp only
  rw [if_neg]
  rintro ⟨shut, armed⟩
  unfold Gui.lockTyped at shut armed
  split at shut
  · cases shut
  · rename_i no
    rw [if_neg no] at armed
    exact no ⟨LockReg.want_ne_nil armed, rfl⟩

theorem onTop_stack (s t : Gui β) (f : β → β) (same : s.stack = t.stack) : (s.onTop f).stack = (t.onTop f).stack := by
  unfold Gui.onTop
  rw [same]
  split
  · rfl
  · exact same

theorem onTop_frame (s : Gui β) (f : β → β) :
    (s.onTop f).stack.length = s.stack.length ∧ (s.onTop f).reg = s.reg ∧ (s.onTop f).locked = s.locked := by
  unfold Gui.onTop
  split
  · rename_i top
    exact ⟨by simp [top], rfl, rfl⟩
  · exact ⟨rfl, rfl, rfl⟩

/-- The lock goes, and the screen under it is entered. -/
theorem pop_lock (top : s.stack = .lock :: below) (long : ¬s.stack.length ≤ 1) :
    (s.pop apps).stack = (Gui.onTop { s with stack := below } apps.enter).stack ∧ (s.pop apps).locked = s.locked := by
  have shorter : s.pop apps = Gui.onTop { s with stack := below } apps.enter := by
    rw [Gui.pop, if_neg long]
    dsimp only
    rw [onTop_lock top, top, List.tail_cons]
  rw [shorter]
  exact ⟨rfl, (onTop_frame _ _).2.2⟩

theorem resumed_nil (empty : g.stack = []) : g.resumed apps = [] := by
  have length := (onTop_frame (g.onTop apps.leave) apps.enter).1
  rw [(onTop_frame g apps.leave).1, empty] at length
  exact List.length_eq_zero_iff.mp length

/-- What an engaged lock is, on a panel that is lit. -/
theorem engaged_state (free : g.locked = false) (engaged : (g.lockEngage apps).locked = true) :
    (g.lockEngage apps).stack = .lock :: (g.onTop apps.leave).stack ∧
      (g.engaged apps).stack = (g.lockEngage apps).stack ∧ (g.engaged apps).active = true ∧
      (g.engaged apps).locked = true ∧ (g.engaged apps).lockDepth = (g.lockEngage apps).stack.length ∧
      (g.lockEngage apps).stack.length = g.stack.length + 1 ∧ (g.engaged apps).reg = g.reg := by
  obtain ⟨_, _, state⟩ := lockEngage_engaged free engaged
  obtain ⟨length, reg, _⟩ := onTop_frame g apps.leave
  unfold Gui.engaged
  rw [state]
  refine ⟨rfl, rfl, rfl, rfl, ?_, ?_, reg⟩
  · rw [List.length_cons, length]
  · rw [List.length_cons, length]

/-- A code that has keys can be entered on the screen that SELECT brings up. -/
theorem enterable_run (entering : Entering base s) (enterable : Enterable s.reg)
    (top : s.stack = (if s.reg.state = .password then .keyboard .begin_ else .pin .begin_) :: base) :
    ∃ t, Run (step apps) Guarded s t ∧ Entering base t ∧ t.submits .selectHold = some s.reg.want ∧ t.reg = s.reg := by
  obtain ⟨-, lit, locked, depth⟩ := entering
  rcases enterable with ⟨password, short, typable⟩ | ⟨pin, digit, six, digits, code⟩
  · rw [if_pos password] at top
    obtain ⟨k, keyed, text⟩ := Keyboard.keyed_text typable short
    obtain ⟨t, run, stack, lit', locked', depth', reg⟩ := run_keyed keyboard_acts keyed top lit
    refine ⟨t, run, ⟨⟨_, rfl, stack⟩, lit', locked'.trans locked, depth'.trans depth⟩, ?_, reg⟩
    unfold Gui.submits
    rw [stack, LockReg.want, if_pos password, ← text]
    rfl
  · have notPassword : s.reg.state ≠ .password := by
      rw [pin]
      decide
    rw [if_neg notPassword] at top
    obtain ⟨t, run, stack, lit', locked', depth', reg⟩ := run_keyed pin_acts (Pin.keyed_text six digits) top lit
    refine ⟨t, run, ⟨⟨_, rfl, stack⟩, lit', locked'.trans locked, depth'.trans depth⟩, ?_, reg⟩
    unfold Gui.submits
    rw [stack, LockReg.want, if_neg notPassword, code]
    rfl

/-- A lock that was engaged over home can be opened exactly when the stack has a slot for its entry screen besides. -/
theorem lock_unlocks (free : g.locked = false) (engaged : (g.lockEngage apps).locked = true) :
    Unlockable apps g ↔ g.stack ≠ [] ∧ g.stack.length + 1 < stackMax := by
  obtain ⟨lock, stack, lit, locked, depth, length, reg⟩ := engaged_state free engaged
  have top := stack.trans lock
  constructor
  · intro h
    constructor
    · intro empty
      -- a lock on nothing: the pop takes no last screen
      have entering : Entering (g.lockEngage apps).stack { g.engaged apps with
          stack := .keyboard { Keyboard.begin_ with text := (g.engaged apps).reg.want } :: (g.lockEngage apps).stack } :=
        ⟨⟨_, rfl, rfl⟩, lit, locked, depth⟩
      have after := (h.enters _ .selectHold 0 entering rfl).1
      rw [tick_submits entering lock rfl] at after
      have short : (g.lockEngage apps).stack.length ≤ 1 := by
        rw [length, empty]
        exact le_rfl
      rw [Gui.pop, if_pos short, resumed_nil empty, lock] at after
      cases after
    · by_contra full
      obtain ⟨x, -, shown⟩ := (h.opens .select (.inl rfl)).top
      rw [handle_lock_full top lit (by rw [stack]; omega), stack] at shown
      have lengths := congrArg List.length shown
      rw [List.length_cons] at lengths
      omega
  · rintro ⟨home, room⟩
    have pressed (e : Event) (select : e = .select ∨ e = .selectHold) :=
      @handle_lock _ apps _ _ e top lit select (by rw [stack]; omega)
    have opens (e : Event) (select : e = .select ∨ e = .selectHold) :
        Entering (g.lockEngage apps).stack ((g.engaged apps).handle apps e) := by
      rw [pressed e select]
      refine ⟨⟨_, ?_, by rw [stack]⟩, lit, locked, depth⟩
      split
      · rfl
      · rfl
    refine ⟨opens, fun s e dt entering submits => ?_, fun enterable => ?_⟩
    · have long : ¬(g.lockEngage apps).stack.length ≤ 1 := by
        have pos := List.length_pos_iff.mpr home
        omega
      rw [tick_submits entering lock submits]
      obtain ⟨released, free'⟩ := @pop_lock _ apps { s.lockTyped s.reg.want with
        stack := (g.lockEngage apps).stack, lockPass := false, locked := false, lockDepth := 1, lockTries := 0 }
        _ lock long
      rw [released, free']
      exact ⟨onTop_stack _ _ _ rfl, rfl⟩
    · rw [← reg] at enterable
      have after := pressed .select (.inl rfl)
      have run := @enterable_run _ apps _ _ (opens .select (.inl rfl)) (by rw [after]; exact enterable)
        (by rw [after]; dsimp only; rw [stack])
      have sameReg : ((g.engaged apps).handle apps .select).reg = g.reg := by
        rw [after]
        exact reg
      rwa [sameReg] at run

theorem lock_unlocks_twoScreens : Unlockable counting twoScreens :=
  (lock_unlocks rfl (by decide)).mpr ⟨by decide, by decide⟩

/-- Seven screens, and a PIN. -/
def sevenScreens : Gui Nat := { twoScreens with stack := List.replicate 7 (.other 0) }

/-- On the eighth slot the lock goes up, and SELECT brings no pad up. -/
theorem lock_wedged : (sevenScreens.lockEngage counting).locked = true ∧ ¬Unlockable counting sevenScreens := by
  refine ⟨by decide, fun h => ?_⟩
  obtain ⟨x, -, top⟩ := (h.opens .select (.inl rfl)).top
  have lengths := congrArg List.length top
  rw [List.length_cons] at lengths
  exact absurd lengths (by decide)

end RPCortex.Panel
