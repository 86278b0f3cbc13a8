import RPCortex.Gesture.Queue

/-! The queue of gestures is a queue: what was accepted comes out once and in order, in every run in which an
`unget` and a push do not take the same place and pushes do not overlap. -/

namespace RPCortex.Gesture

open Lib

variable {s s' : Input} {t : Task} {e : Event} {p : Push}

/-- Where the first event is, or will be. -/
def Input.first (s : Input) : Nat := if s.ui.puts then up s.tail else s.tail

/-- The place that `unget` has taken. -/
def Ui.place : Ui → Nat
  | .back .. => 1
  | .put _ => 1
  | _ => 0

/-- Where a push is, with the head and the slots that it sees. -/
def Push.At (head : Nat) (queue : Nat → Event) : Push → Prop
  | .idle => True
  | .loaded _ next => next = up head
  | .room _ next => next = up head
  | .at_ _ next h => next = up head ∧ h = head
  | .stored e next => next = up head ∧ queue head = e

/-- Where the UI task is. -/
def Ui.At (waiting : List Event) (tail : Nat) : Ui → Prop
  | .idle => True
  | .take => waiting ≠ []
  | .taken e => waiting.head? = some e
  | .back _ prev => prev = down tail
  | .put _ => True

/-- The ring holds what it should, with the places that are taken. -/
structure Input.Sound (s : Input) : Prop where
  tail : s.tail < 32
  head : s.head = (s.first + s.waiting.length) % 32
  holds : ∀ i (h : i < s.waiting.length), s.queue ((s.first + i) % 32) = s.waiting[i]
  room : s.waiting.length + s.ui.place + s.sure.toNat ≤ 31
  one : ∀ t, (s.push t).isIdle = false → (s.push t.other).isIdle = true
  push : ∀ t, (s.push t).At s.head s.queue
  ui : s.ui.At s.waiting s.tail
  right : s.right = true
  accounts : (s.returned ++ s.waiting).Perm s.accepted

theorem sound_start (queue : Nat → Event) : (Input.start queue).Sound where
  tail := show 0 < 32 by decide
  head := rfl
  holds _ no := absurd no (Nat.not_lt_zero _)
  room := show 0 + 0 + 0 ≤ 31 by decide
  one _ no := absurd no (Bool.noConfusion)
  push _ := trivial
  ui := trivial
  right := rfl
  accounts := List.Perm.refl _

/-! ### Indices -/

/-- The queue's size in the numbers of the code, while no `unget` has moved the tail. -/
theorem Input.Sound.used (h : s.Sound) (whole : s.ui.puts = false) : s.used = s.waiting.length := by
  have room := h.room
  have tail := h.tail
  have first : s.first = s.tail := by simp [Input.first, whole]
  unfold Input.used
  rw [h.head, first]
  omega

theorem place_puts {ui : Ui} (puts : ui.puts = true) : ui.place = 1 := by
  cases ui with
  | put e => rfl
  | _ => cases puts

theorem place_backs {ui : Ui} (backs : ui.backs = true) : ui.place = 1 := by
  cases ui with
  | back e prev => rfl
  | _ => cases backs

theorem place_other {ui : Ui} (puts : ui.puts = false) (backs : ui.backs = false) : ui.place = 0 := by
  cases ui with
  | put e => cases puts
  | back e prev => cases backs
  | _ => rfl

/-! ### Pushes -/

theorem sure_of (alone : (s.push t.other).isIdle = true) : s.sure = (s.push t).sure := by
  have quiet : (s.push t.other).sure = false := by
    cases at_ : s.push t.other with
    | idle => rfl
    | _ => rw [at_] at alone; cases alone
  cases t with
  | input =>
    have quiet : (s.push .inject).sure = false := quiet
    rw [Input.sure, quiet, Bool.or_false]
  | inject =>
    have quiet : (s.push .input).sure = false := quiet
    rw [Input.sure, quiet, Bool.false_or]

theorem other_ne : t.other ≠ t := by cases t <;> decide

theorem eq_or_other (t' : Task) : t' = t ∨ t' = t.other := by cases t <;> cases t' <;> decide

/-- One push goes on, and the other is idle. -/
theorem one_upd (alone : (s.push t.other).isIdle = true) (t' : Task) (busy : (upd s.push t p t').isIdle = false) :
    (upd s.push t p t'.other).isIdle = true := by
  rcases eq_or_other (t := t) t' with same | other
  · rw [same, upd_ne other_ne]
    exact alone
  · rw [other, upd_ne other_ne, alone] at busy
    cases busy

theorem at_upd {head : Nat} {queue : Nat → Event} (alone : (s.push t.other).isIdle = true) (at_ : p.At head queue)
    (t' : Task) : (upd s.push t p t').At head queue := by
  rcases eq_or_other (t := t) t' with same | other
  · rw [same, upd_same]
    exact at_
  · rw [other, upd_ne other_ne]
    cases idle : s.push t.other with
    | idle => trivial
    | _ => rw [idle] at alone; cases alone

theorem sure_upd (push : s'.push = upd s.push t p) (alone : (s.push t.other).isIdle = true) : s'.sure = p.sure := by
  have alone' : (s'.push t.other).isIdle = true := by
    rw [push, upd_ne other_ne]
    exact alone
  rw [sure_of alone', push, upd_same]

/-- A push goes on without a change to the ring. -/
theorem Input.Sound.goOn (h : s.Sound) (alone : (s.push t.other).isIdle = true) (at_ : p.At s.head s.queue)
    (room : s.waiting.length + s.ui.place + p.sure.toNat ≤ 31) : Input.Sound { s with push := upd s.push t p } where
  tail := h.tail
  head := h.head
  holds := h.holds
  room := by
    rw [sure_upd (s := s) rfl alone]
    exact room
  one := one_upd alone
  push := at_upd alone at_
  ui := h.ui
  right := h.right
  accounts := h.accounts

theorem Input.Sound.pushStep (h : s.Sound) (roomy : Roomy s (.pushes t)) (taken : s.pushStep t = some s') :
    s'.Sound := by
  have at_ := h.push t
  have room := h.room
  have tail := h.tail
  have head := h.head
  unfold Input.pushStep at taken
  cases pc : s.push t with
  | idle => rw [pc] at taken; cases taken
  | loaded e next =>
    rw [pc] at taken at_
    have alone := h.one t (by rw [pc]; rfl)
    have next_ : next = up s.head := at_
    have free : s.sure = false := by rw [sure_of alone, pc]; rfl
    rw [free] at room
    simp only at taken
    split at taken
    · obtain rfl := Option.some.inj taken
      exact h.goOn alone trivial room
    · rename_i ne
      obtain rfl := Option.some.inj taken
      refine h.goOn alone at_ ?_
      show s.waiting.length + s.ui.place + 1 ≤ 31
      have room : s.waiting.length + s.ui.place + 0 ≤ 31 := room
      rw [next_, head] at ne
      unfold up at ne
      cases puts : s.ui.puts with
      | true =>
        rw [place_puts puts] at room ⊢
        have first : s.first = up s.tail := by simp [Input.first, puts]
        rw [first, up] at ne
        omega
      | false =>
        have first : s.first = s.tail := by simp [Input.first, puts]
        rw [first] at ne
        cases backs : s.ui.backs with
        | true =>
          have places := roomy (by rw [pc]; rfl) backs
          rw [h.used puts] at places
          rw [place_backs backs]
          omega
        | false =>
          rw [place_other puts backs] at room ⊢
          omega
  | room e next =>
    rw [pc] at taken at_
    have alone := h.one t (by rw [pc]; rfl)
    have sure : s.sure = true := by rw [sure_of alone, pc]; rfl
    rw [sure] at room
    obtain rfl := Option.some.inj taken
    exact h.goOn alone ⟨at_, rfl⟩ room
  | at_ e next hd =>
    rw [pc] at taken at_
    have alone := h.one t (by rw [pc]; rfl)
    have sure : s.sure = true := by rw [sure_of alone, pc]; rfl
    rw [sure] at room
    obtain ⟨next_, rfl⟩ : next = up s.head ∧ hd = s.head := at_
    obtain rfl := Option.some.inj taken
    refine ⟨h.tail, h.head, fun i lt => ?_, ?_, one_upd alone, at_upd alone ⟨next_, upd_same⟩, h.ui, h.right,
      h.accounts⟩
    · show upd s.queue s.head e ((s.first + i) % 32) = s.waiting[i]
      have lt : i < s.waiting.length := lt
      rw [upd_ne, h.holds i lt]
      rw [head]
      omega
    · rw [sure_upd (s := s) rfl alone]
      exact room
  | stored e next =>
    rw [pc] at taken at_
    have alone := h.one t (by rw [pc]; rfl)
    have sure : s.sure = true := by rw [sure_of alone, pc]; rfl
    rw [sure] at room
    have room : s.waiting.length + s.ui.place + 1 ≤ 31 := room
    obtain ⟨next_, slot⟩ : next = up s.head ∧ s.queue s.head = e := at_
    obtain rfl := Option.some.inj taken
    have longer : (s.waiting ++ [e]).length = s.waiting.length + 1 := by simp
    refine ⟨h.tail, ?_, fun i lt => ?_, ?_, one_upd alone, at_upd alone trivial, ?_, h.right, ?_⟩
    · show next = (s.first + (s.waiting ++ [e]).length) % 32
      rw [next_, up, head, longer]
      omega
    · show s.queue ((s.first + i) % 32) = (s.waiting ++ [e])[i]
      have lt : i < (s.waiting ++ [e]).length := lt
      by_cases last : i = s.waiting.length
      · subst last
        rw [List.getElem_concat_length rfl, ← head]
        exact slot
      · have earlier : i < s.waiting.length := by omega
        rw [List.getElem_append_left earlier]
        exact h.holds i earlier
    · rw [sure_upd (s := s) rfl alone]
      show (s.waiting ++ [e]).length + s.ui.place + 0 ≤ 31
      omega
    · show s.ui.At (s.waiting ++ [e]) s.tail
      have ui := h.ui
      cases at_ : s.ui with
      | take => simp [Ui.At]
      | taken e' =>
        rw [at_] at ui
        show (s.waiting ++ [e]).head? = some e'
        rw [List.head?_append, (ui : s.waiting.head? = some e')]
        rfl
      | back e' prev =>
        rw [at_] at ui
        exact ui
      | idle => trivial
      | put e' => trivial
    · show (s.returned ++ (s.waiting ++ [e])).Perm (s.accepted ++ [e])
      rw [← List.append_assoc]
      exact h.accounts.append_right _

/-! ### The UI task -/

theorem Input.Sound.next (h : s.Sound) (idle : s.ui.isIdle = true) : s.next.Sound := by
  have room := h.room
  have tail := h.tail
  have whole : s.ui.puts = false ∧ s.ui.backs = false := by
    cases at_ : s.ui with
    | idle => exact ⟨rfl, rfl⟩
    | _ => rw [at_] at idle; cases idle
  have first : s.first = s.tail := by simp [Input.first, whole]
  have head := h.head
  rw [first] at head
  unfold Input.next
  split
  · rename_i same
    have none_ : s.waiting = [] := List.eq_nil_of_length_eq_zero (by omega)
    refine ⟨h.tail, h.head, h.holds, h.room, h.one, h.push, h.ui, ?_, h.accounts⟩
    simp [h.right, none_]
  · rename_i ne
    refine ⟨h.tail, ?_, fun i lt => ?_, ?_, h.one, h.push, ?_, h.right, h.accounts⟩
    · show s.head = (s.tail + s.waiting.length) % 32
      exact head
    · have at_ := h.holds i lt
      rw [first] at at_
      exact at_
    · rw [place_other whole.1 whole.2] at room
      exact room
    · intro none_
      have zero : s.waiting.length = 0 := congrArg List.length none_
      omega

theorem Input.Sound.pending (h : s.Sound) (idle : s.ui.isIdle = true) : s.pending.Sound := by
  have room := h.room
  have tail := h.tail
  have whole : s.ui.puts = false := by
    cases at_ : s.ui with
    | idle => rfl
    | _ => rw [at_] at idle; cases idle
  have first : s.first = s.tail := by simp [Input.first, whole]
  have head := h.head
  rw [first] at head
  refine ⟨h.tail, h.head, h.holds, h.room, h.one, h.push, h.ui, ?_, h.accounts⟩
  have same : s.head = s.tail ↔ s.waiting = [] := by
    rw [← List.length_eq_zero_iff]
    omega
  show (s.right && decide (s.head ≠ s.tail) == !s.waiting.isEmpty) = true
  rw [h.right]
  cases waiting : s.waiting with
  | nil => simp [same.mpr waiting]
  | cons e rest =>
    have ne : s.head ≠ s.tail := fun eq => absurd (waiting.symm.trans (same.mp eq)) (List.cons_ne_nil _ _)
    simp [ne]

theorem Input.Sound.unget (h : s.Sound) (roomy : Roomy s (.unget e)) (idle : s.ui.isIdle = true) :
    (s.unget e).Sound := by
  have room := h.room
  have tail := h.tail
  have whole : s.ui.puts = false ∧ s.ui.backs = false := by
    cases at_ : s.ui with
    | idle => exact ⟨rfl, rfl⟩
    | _ => rw [at_] at idle; cases idle
  have first : s.first = s.tail := by simp [Input.first, whole]
  have head := h.head
  rw [first] at head
  unfold Input.unget
  split
  · exact h
  · rename_i ne
    refine ⟨h.tail, ?_, fun i lt => ?_, ?_, h.one, h.push, rfl, h.right, h.accounts⟩
    · show s.head = (s.tail + s.waiting.length) % 32
      exact head
    · have at_ := h.holds i lt
      rw [first] at at_
      exact at_
    · show s.waiting.length + 1 + s.sure.toNat ≤ 31
      rw [place_other whole.1 whole.2] at room
      cases sure : s.sure with
      | true =>
        have places := roomy sure
        rw [h.used whole.1] at places
        show s.waiting.length + 1 + 1 ≤ 31
        omega
      | false =>
        show s.waiting.length + 1 + 0 ≤ 31
        rw [sure] at room
        have room : s.waiting.length + 0 + 0 ≤ 31 := room
        unfold down at ne
        omega

theorem Input.Sound.uiStep (h : s.Sound) (taken : s.uiStep = some s') : s'.Sound := by
  have ui := h.ui
  have room := h.room
  have tail := h.tail
  have head := h.head
  have holds := h.holds
  unfold Input.uiStep at taken
  cases at_ : s.ui with
  | idle => rw [at_] at taken; cases taken
  | take =>
    rw [at_] at taken ui room
    have first : s.first = s.tail := by simp [Input.first, at_, Ui.puts]
    rw [first] at head holds
    obtain rfl := Option.some.inj taken
    obtain ⟨e, rest, waiting⟩ := List.exists_cons_of_ne_nil (ui : s.waiting ≠ [])
    refine ⟨h.tail, head, holds, room, h.one, h.push, ?_, h.right, h.accounts⟩
    show s.waiting.head? = some (s.queue s.tail)
    have slot := holds 0 (by simp [waiting])
    rw [Nat.add_zero, Nat.mod_eq_of_lt tail] at slot
    rw [slot]
    simp [waiting]
  | taken e =>
    rw [at_] at taken ui room
    have first : s.first = s.tail := by simp [Input.first, at_, Ui.puts]
    rw [first] at head holds
    obtain rfl := Option.some.inj taken
    have front : s.waiting.head? = some e := ui
    obtain ⟨rest, waiting⟩ := List.head?_eq_some_iff.mp front
    have size : s.waiting.length = rest.length + 1 := by rw [waiting]; rfl
    have room : s.waiting.length + 0 + s.sure.toNat ≤ 31 := room
    refine ⟨Nat.mod_lt _ (by decide), ?_, fun i lt => ?_, ?_, h.one, h.push, trivial, ?_, ?_⟩
    · show s.head = (up s.tail + s.waiting.tail.length) % 32
      rw [head, waiting, up]
      simp only [List.tail_cons, List.length_cons]
      omega
    · have lt : i < s.waiting.tail.length := lt
      show s.queue ((up s.tail + i) % 32) = s.waiting.tail[i]
      have slot := holds (i + 1) (by rw [List.length_tail] at lt; omega)
      rw [List.getElem_tail, ← slot, up]
      congr 1
      omega
    · show s.waiting.tail.length + 0 + s.sure.toNat ≤ 31
      rw [List.length_tail]
      omega
    · show (s.right && decide (s.waiting.head? = some e)) = true
      rw [h.right, decide_eq_true front]
      rfl
    · show (s.returned ++ [e] ++ s.waiting.tail).Perm s.accepted
      have before := h.accounts
      rw [waiting] at before ⊢
      rw [List.append_assoc]
      exact before
  | back e prev =>
    rw [at_] at taken ui room
    have first : s.first = s.tail := by simp [Input.first, at_, Ui.puts]
    rw [first] at head holds
    obtain rfl := Option.some.inj taken
    have prev_ : prev = down s.tail := ui
    have same : up prev = s.tail := by
      rw [prev_]
      unfold up down
      omega
    refine ⟨?_, ?_, fun i lt => ?_, room, h.one, h.push, trivial, h.right, h.accounts⟩
    · show prev < 32
      rw [prev_]
      exact Nat.mod_lt _ (by decide)
    · show s.head = (up prev + s.waiting.length) % 32
      rw [same]
      exact head
    · show s.queue ((up prev + i) % 32) = s.waiting[i]
      rw [same]
      exact holds i lt
  | put e =>
    rw [at_] at taken room
    have first : s.first = up s.tail := by simp [Input.first, at_, Ui.puts]
    rw [first] at head holds
    obtain rfl := Option.some.inj taken
    have room : s.waiting.length + 1 + s.sure.toNat ≤ 31 := room
    have longer : (e :: s.waiting).length = s.waiting.length + 1 := rfl
    refine ⟨tail, ?_, fun i lt => ?_, ?_, h.one, fun t => ?_, trivial, h.right, ?_⟩
    · show s.head = (s.tail + (e :: s.waiting).length) % 32
      rw [head, longer, up]
      omega
    · show upd s.queue s.tail e ((s.tail + i) % 32) = (e :: s.waiting)[i]
      have lt : i < (e :: s.waiting).length := lt
      cases i with
      | zero =>
        rw [Nat.add_zero, Nat.mod_eq_of_lt tail, upd_same]
        rfl
      | succ i =>
        have lt : i < s.waiting.length := Nat.lt_of_succ_lt_succ lt
        rw [upd_ne (by omega), List.getElem_cons_succ, ← holds i lt, up]
        congr 1
        omega
    · show (e :: s.waiting).length + 0 + s.sure.toNat ≤ 31
      omega
    · show (s.push t).At s.head (upd s.queue s.tail e)
      have push := h.push t
      cases pc : s.push t with
      | stored e' next =>
        rw [pc] at push
        refine ⟨push.1, ?_⟩
        have sure : s.sure = true := by
          rw [sure_of (h.one t (by rw [pc]; rfl)), pc]
          rfl
        rw [sure] at room
        have room : s.waiting.length + 1 + 1 ≤ 31 := room
        have apart : s.head ≠ s.tail := by
          rw [head, up]
          omega
        rw [upd_ne apart]
        exact push.2
      | idle => trivial
      | loaded e' next => rw [pc] at push; exact push
      | room e' next => rw [pc] at push; exact push
      | at_ e' next hd => rw [pc] at push; exact push
    · show (s.returned ++ e :: s.waiting).Perm (s.accepted ++ [e])
      exact (List.perm_middle.trans (h.accounts.cons e)).trans (List.perm_append_singleton e _).symm

theorem Input.Sound.step {a : Action} (h : s.Sound) (roomy : Roomy s a) (taken : step s a = some s') : s'.Sound := by
  cases a with
  | push t e =>
    unfold Gesture.step at taken
    simp only at taken
    split at taken
    · rename_i idle
      obtain rfl := Option.some.inj taken
      refine h.goOn roomy rfl ?_
      have room := h.room
      show s.waiting.length + s.ui.place + 0 ≤ 31
      omega
    · cases taken
  | pushes t => exact h.pushStep roomy taken
  | next =>
    unfold Gesture.step at taken
    simp only at taken
    split at taken
    · rename_i idle
      obtain rfl := Option.some.inj taken
      exact h.next idle
    · cases taken
  | pending =>
    unfold Gesture.step at taken
    simp only at taken
    split at taken
    · rename_i idle
      obtain rfl := Option.some.inj taken
      exact h.pending idle
    · cases taken
  | unget e =>
    unfold Gesture.step at taken
    simp only at taken
    split at taken
    · rename_i idle
      obtain rfl := Option.some.inj taken
      exact h.unget roomy idle
    · cases taken
  | ui => exact h.uiStep taken

/-- Every answer of the queue is the right one, every event that found room or was put back is returned once or
still waits, and what waits is in the ring in its order. -/
theorem run_right {queue : Nat → Event} (run : Run step Roomy (Input.start queue) s) :
    s.right = true ∧ (s.returned ++ s.waiting).Perm s.accepted ∧ (s.ui.puts = false → s.contents = s.waiting) := by
  have h : s.Sound := run.invariant (P := Input.Sound) (sound_start queue) fun _ _ _ h roomy taken =>
    h.step roomy taken
  refine ⟨h.right, h.accounts, fun whole => ?_⟩
  have first : s.first = s.tail := by simp [Input.first, whole]
  have holds := h.holds
  rw [first] at holds
  unfold Input.contents
  rw [h.used whole]
  refine List.ext_getElem (by simp) fun i lt lt' => ?_
  rw [List.getElem_map, List.getElem_range]
  exact holds i lt'

/-- A whole push of the input task. -/
def pushed (e : Event) : List Action := .push .input e :: List.replicate 4 (.pushes .input)

/-- The second of two turns is put back while another push is under way. -/
def turnBack : List Action :=
  [.next, .ui, .ui, .push .input .back, .next, .pushes .input, .ui, .ui, .pending, .unget .rotCcw, .pushes .input, .ui,
    .pushes .input, .ui, .pushes .input]

/-- Everything that is left is taken. -/
def takeAll : List Action := [.next, .ui, .ui, .next, .ui, .ui, .next, .ui, .ui, .next]

/-- Two turns and a press, with the second turn put back. -/
def spin : List Action :=
  [pushed .rotCw, pushed .rotCcw, pushed .select, turnBack, takeAll].flatten

theorem run_right_spin : ∃ s, Run step Roomy (Input.start fun _ => .home) s ∧ (s.right = true ∧
    (s.returned ++ s.waiting).Perm s.accepted ∧ (s.ui.puts = false → s.contents = s.waiting)) := by
  have ends : (exec step (Input.start fun _ => .home) spin).isSome = true := by decide +kernel
  have roomy : allowed step Roomy (Input.start fun _ => .home) spin = true := by decide +kernel
  exact ⟨_, Run.of_exec_get ends roomy, run_right (Run.of_exec_get ends roomy)⟩

/-- An event is put back while a push is past its test. -/
def putBack : List Action :=
  [.next, .ui, .ui, .push .input .select, .pushes .input, .unget .rotCw, .ui, .ui, .pushes .input, .pushes .input,
    .pushes .input, .next]

/-- With thirty events in the ring: it looks empty. -/
def crowded : List Action := (List.replicate 31 (pushed .rotCw)).flatten ++ putBack

theorem not_run_right : ¬∀ (queue : Nat → Event) (s : Input), Run step (fun _ _ => True) (Input.start queue) s →
    s.right = true ∧ (s.returned ++ s.waiting).Perm s.accepted ∧ (s.ui.puts = false → s.contents = s.waiting) := by
  intro all
  have ends : (exec step (Input.start fun _ => .home) crowded).map (fun s => (s.right, s.waiting.length)) =
      some (false, 32) := by decide +kernel
  obtain ⟨s, ran, both⟩ := Option.map_eq_some_iff.mp ends
  obtain ⟨wrong, _⟩ := Prod.mk.inj both
  have run : Run step (fun _ _ => True) (Input.start fun _ => .home) s := Run.of_exec ran (by decide +kernel)
  exact absurd (wrong.symm.trans (all _ s run).1) (by decide)

end RPCortex.Gesture
