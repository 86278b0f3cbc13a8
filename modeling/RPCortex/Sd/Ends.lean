import RPCortex.Sd.Proto

/-! Whatever the card answers, the calls return, leave the card deselected and do not touch the fast clock
before the end of an initialisation; and a block that is read has its CRC. -/

namespace RPCortex.Sd

variable {α β : Type} {w : World} {s : State}

/-- The program returns, with `Q`. -/
def Ends (m : Dev α) (s : State) (Q : α → State → Prop) : Prop := ∃ a s', m s = some (a, s') ∧ Q a s'

theorem Ends.pure {a : α} {Q : α → State → Prop} (h : Q a s) : Ends (pure a : Dev α) s Q := ⟨a, s, rfl, h⟩

theorem Ends.bind {m : Dev α} {f : α → Dev β} {Q : α → State → Prop} {R : β → State → Prop}
    (h : Ends m s Q) (then_ : ∀ a s', Q a s' → Ends (f a) s' R) : Ends (m >>= f) s R := by
  obtain ⟨a, s', eq, q⟩ := h
  obtain ⟨b, s'', eq', r⟩ := then_ a s' q
  refine ⟨b, s'', ?_, r⟩
  show (m s).bind (fun r => f r.1 r.2) = _
  rw [eq]
  exact eq'

theorem Ends.mono {m : Dev α} {Q R : α → State → Prop} (h : Ends m s Q) (implies : ∀ a s', Q a s' → R a s') :
    Ends m s R := by
  obtain ⟨a, s', eq, q⟩ := h
  exact ⟨a, s', eq, implies a s' q⟩

/-- What went out does not select the fast clock, and bytes come in order. -/
structure Slow (s s' : State) : Prop where
  log : ∃ new, s'.log = s.log ++ new ∧ Signal.baud runHz ∉ new
  pos : s.pos ≤ s'.pos

theorem Slow.refl (s : State) : Slow s s := ⟨⟨[], (List.append_nil _).symm, List.not_mem_nil⟩, le_rfl⟩

theorem Slow.trans {s₁ s₂ s₃ : State} (h : Slow s₁ s₂) (h' : Slow s₂ s₃) : Slow s₁ s₃ := by
  obtain ⟨new, eq, none_⟩ := h.log
  obtain ⟨new', eq', none'⟩ := h'.log
  refine ⟨⟨new ++ new', by rw [eq', eq, List.append_assoc], fun mem => ?_⟩, h.pos.trans h'.pos⟩
  exact (List.mem_append.mp mem).elim none_ none'

/-- The same, between two readings of the clock. -/
structure Still (s s' : State) : Prop where
  slow : Slow s s'
  reads : s'.reads = s.reads

theorem Still.refl (s : State) : Still s s := ⟨.refl s, rfl⟩

theorem Still.trans {s₁ s₂ s₃ : State} (h : Still s₁ s₂) (h' : Still s₂ s₃) : Still s₁ s₃ :=
  ⟨h.slow.trans h'.slow, h'.reads.trans h.reads⟩

theorem slow_initHz : Signal.baud initHz ≠ .baud runHz := fun no => absurd (Signal.baud.inj no) (by decide)

/-! ### The wire -/

theorem ends_signal {e : Signal} (slow : e ≠ .baud runHz) :
    Ends (signal e) s fun _ s' => Still s s' ∧ s'.selected = s.selected :=
  ⟨(), _, rfl, ⟨⟨⟨[e], rfl, fun mem => slow (List.mem_singleton.mp mem).symm⟩, le_rfl⟩, rfl⟩, rfl⟩

theorem ends_cs {select : Bool} : Ends (cs select) s fun _ s' => Still s s' ∧ s'.selected = select :=
  ⟨(), _, rfl, ⟨⟨⟨[.cs select], rfl, fun mem => Signal.noConfusion (List.mem_singleton.mp mem)⟩, le_rfl⟩, rfl⟩, rfl⟩

theorem ends_setCard {f : SdCard → SdCard} :
    Ends (setCard f) s fun _ s' => Still s s' ∧ s'.selected = s.selected ∧ s'.pos = s.pos :=
  ⟨(), _, rfl, ⟨⟨⟨[], (List.append_nil _).symm, List.not_mem_nil⟩, le_rfl⟩, rfl⟩, rfl, rfl⟩

theorem ends_card : Ends card s fun c s' => c = s.card ∧ s' = s := ⟨_, _, rfl, rfl, rfl⟩

theorem ends_tx {bytes : List UInt8} : Ends (tx bytes) s fun _ s' => Still s s' :=
  ⟨(), _, rfl, ⟨⟨[.sent bytes], rfl, fun mem => Signal.noConfusion (List.mem_singleton.mp mem)⟩,
    Nat.le_add_right _ _⟩, rfl⟩

theorem ends_rx {n : Nat} : Ends (rx w n) s fun bytes s' =>
    Still s s' ∧ bytes = received w s.pos n ∧ s'.pos = s.pos + n ∧ s'.card = s.card :=
  ⟨_, _, rfl, ⟨⟨⟨[], (List.append_nil _).symm, List.not_mem_nil⟩, Nat.le_add_right _ _⟩, rfl⟩, rfl, rfl, rfl⟩

theorem ends_rx1 : Ends (rx1 w) s fun _ s' => Still s s' ∧ s'.selected = s.selected :=
  ⟨_, _, rfl, ⟨⟨⟨[], (List.append_nil _).symm, List.not_mem_nil⟩, Nat.le_add_right _ _⟩, rfl⟩, rfl⟩

theorem ends_now : Ends (now w) s fun t s' =>
    Slow s s' ∧ t = UInt32.ofNat (w.clock.shows s.reads) ∧ s'.reads = s.reads + 1 :=
  ⟨_, _, rfl, ⟨⟨[], (List.append_nil _).symm, List.not_mem_nil⟩, le_rfl⟩, rfl, rfl⟩

theorem ends_fuel : Ends (fuel w) s fun n s' => n = w.clock.passes (s.reads - 1) + 1 ∧ s' = s :=
  ⟨_, _, rfl, rfl, rfl⟩

theorem ends_clocks (n : Nat) : Ends (clocks w n) s fun _ s' => Still s s' ∧ s'.selected = s.selected := by
  induction n generalizing s with
  | zero => exact .pure ⟨.refl s, rfl⟩
  | succ n ih =>
    refine (ends_rx1).bind fun _ s₁ h => ih.mono fun _ s₂ h' => ?_
    exact ⟨h.1.trans h'.1, h'.2.trans h.2⟩

theorem ends_release : Ends (release w) s fun _ s' => Still s s' ∧ s'.selected = false := by
  refine (ends_cs).bind fun _ s₁ h => (ends_clocks 1).mono fun _ s₂ h' => ?_
  exact ⟨h.1.trans h'.1, h'.2.trans h.2⟩

theorem ends_answer (n : Nat) (r : UInt8) : Ends (answer w n r) s fun _ s' => Still s s' := by
  induction n generalizing s r with
  | zero => exact .pure (.refl s)
  | succ n ih =>
    refine (ends_rx1).bind fun r' s₁ h => ?_
    split
    · exact .pure h.1
    · exact (ih r').mono fun _ _ h' => h.1.trans h'

theorem ends_sendCmd {cmd : UInt8} {arg : UInt32} {extra : Nat} :
    Ends (sendCmd w cmd arg extra) s fun _ s' => Still s s' := by
  refine (ends_tx).bind fun _ s₁ h => (ends_answer 10 _).bind fun r s₂ h' => ?_
  exact (ends_rx).bind fun _ s₃ h'' => .pure ((h.trans h').trans h''.1)

/-! ### The clock -/

/-- What the driver computes is the time that has passed, while it is not much longer than its limit. -/
theorem elapsed {c : Clock} {r k : Nat} (le : r ≤ k) (soon : c.shows k < c.shows r + 2 ^ 32) :
    (UInt32.ofNat (c.shows k) - UInt32.ofNat (c.shows r)).toNat = c.shows k - c.shows r := by
  have mono := c.mono le
  rw [UInt32.toNat_sub, UInt32.toNat_ofNat', UInt32.toNat_ofNat']
  omega

/-- A loop that began at reading `r` has fuel for the time that is left. -/
structure Lasts (c : Clock) (r left : Nat) (s : State) : Prop where
  after : r < s.reads
  before : c.shows (s.reads - 1) < c.shows r + initMs.toNat
  enough : c.shows r + initMs.toNat ≤ c.shows (s.reads + left)

theorem lasts_start {s' : State} (reads : s'.reads = s.reads + 1) :
    Lasts w.clock s.reads (w.clock.passes s.reads) s' where
  after := by omega
  before := by
    rw [reads, Nat.add_sub_cancel]
    exact Nat.lt_add_of_pos_right (by decide)
  enough := (Nat.find_spec (w.clock.ends s.reads)).trans (w.clock.mono (by
    show s.reads + w.clock.passes s.reads ≤ _
    omega))

/-- After a reading that is not late, the fuel is not used up. -/
theorem Lasts.next {c : Clock} {r left : Nat} {ms : UInt32} {s' : State} (l : Lasts c r left s)
    (longest : ms ≤ initMs) (reads : s'.reads = s.reads + 1)
    (early : ¬UInt32.ofNat (c.shows s.reads) - UInt32.ofNat (c.shows r) ≥ ms) :
    ∃ left', left = left' + 1 ∧ Lasts c r left' s' := by
  have gap := c.steps (s.reads - 1)
  have after := l.after
  have before := l.before
  rw [Nat.sub_add_cancel (by omega)] at gap
  have limit : initMs.toNat = 1200 := rfl
  have ms' := UInt32.le_iff_toNat_le.mp longest
  have passed : c.shows s.reads - c.shows r < ms.toNat := by
    have late := UInt32.not_le.mp early
    rw [UInt32.lt_iff_toNat_lt, elapsed (by omega) (by omega)] at late
    exact late
  have mono := c.mono (Nat.le_of_lt after)
  cases left with
  | zero =>
    have enough := l.enough
    rw [Nat.add_zero] at enough
    omega
  | succ left =>
    refine ⟨left, rfl, ?_, ?_, ?_⟩
    · omega
    · rw [reads, Nat.add_sub_cancel]
      omega
    · rw [reads, Nat.add_assoc, Nat.add_comm 1]
      exact l.enough

theorem Lasts.still {c : Clock} {r left : Nat} {s' : State} (l : Lasts c r left s) (still : Still s s') :
    Lasts c r left s' :=
  ⟨by rw [still.reads]; exact l.after, by rw [still.reads]; exact l.before, by rw [still.reads]; exact l.enough⟩

/-! ### The loops -/

theorem ends_waitIdleLoop {ms : UInt32} {r left : Nat} (longest : ms ≤ initMs) (l : Lasts w.clock r left s) :
    Ends (waitIdleLoop w ms (UInt32.ofNat (w.clock.shows r)) (left + 1)) s fun _ s' => Slow s s' := by
  induction left using Nat.strong_induction_on generalizing s with
  | _ left ih =>
    refine (ends_rx1).bind fun b s₁ h₁ => ?_
    split
    · exact .pure h₁.1.slow
    refine (ends_now).bind fun t s₂ h₂ => ?_
    obtain ⟨slow, rfl, reads⟩ := h₂
    split
    · exact .pure (h₁.1.slow.trans slow)
    rename_i early
    obtain ⟨left', rfl, l'⟩ := (l.still h₁.1).next longest reads early
    refine (ends_signal Signal.noConfusion).bind fun _ s₃ h₃ => ?_
    refine (ih left' (Nat.lt_succ_self _) (l'.still h₃.1)).mono fun _ s₄ h₄ => ?_
    exact ((h₁.1.slow.trans slow).trans h₃.1.slow).trans h₄

theorem ends_waitIdle {ms : UInt32} (longest : ms ≤ initMs) : Ends (waitIdle w ms) s fun _ s' => Slow s s' := by
  refine (ends_now).bind fun t s₁ h₁ => (ends_fuel).bind fun n s₂ h₂ => ?_
  obtain ⟨slow, rfl, reads⟩ := h₁
  obtain ⟨rfl, rfl⟩ := h₂
  have l := lasts_start (w := w) (s := s) reads
  rw [reads, Nat.add_sub_cancel]
  exact (ends_waitIdleLoop longest l).mono fun _ _ h => slow.trans h

theorem ends_tokenLoop {r left : Nat} (l : Lasts w.clock r left s) :
    Ends (tokenLoop w (UInt32.ofNat (w.clock.shows r)) (left + 1)) s fun _ s' => Slow s s' := by
  induction left using Nat.strong_induction_on generalizing s with
  | _ left ih =>
    refine (ends_rx1).bind fun t s₁ h₁ => ?_
    split
    · exact .pure h₁.1.slow
    split
    · exact .pure h₁.1.slow
    refine (ends_now).bind fun t s₂ h₂ => ?_
    obtain ⟨slow, rfl, reads⟩ := h₂
    split
    · exact .pure (h₁.1.slow.trans slow)
    rename_i early
    obtain ⟨left', rfl, l'⟩ := (l.still h₁.1).next (by decide) reads early
    refine (ih left' (Nat.lt_succ_self _) l').mono fun _ s₃ h₃ => ?_
    exact (h₁.1.slow.trans slow).trans h₃

/-- The data that is read, and whether it has its CRC. -/
theorem ends_readData {buf : List UInt8} {len : Nat} {check : Bool} :
    Ends (readData w buf len check) s fun r s' => Slow s s' ∧ (r.1 = true → check = true → ∃ p, s.pos ≤ p ∧
      p + len + 2 ≤ s'.pos ∧ r.2 = received w p len ∧
        sdCrc16 r.2 = (w.answers (p + len)).toUInt16 <<< 8 ||| (w.answers (p + len + 1)).toUInt16) := by
  refine (ends_now).bind fun t s₁ h₁ => (ends_fuel).bind fun n s₂ h₂ => ?_
  obtain ⟨slow, rfl, reads⟩ := h₁
  obtain ⟨rfl, rfl⟩ := h₂
  have l := lasts_start (w := w) (s := s) reads
  rw [reads, Nat.add_sub_cancel]
  refine (ends_tokenLoop l).bind fun came s₃ h₃ => ?_
  split
  · refine (ends_rx).bind fun data s₄ h₄ => (ends_rx).bind fun crc s₅ h₅ => ?_
    obtain ⟨still₄, rfl, pos₄, _⟩ := h₄
    obtain ⟨still₅, rfl, pos₅, _⟩ := h₅
    have all := ((slow.trans h₃).trans still₄.slow).trans still₅.slow
    split
    · refine (ends_setCard).bind fun _ s₆ h₆ => .pure ⟨all.trans h₆.1.slow, fun no => Bool.noConfusion no⟩
    · rename_i same
      refine .pure ⟨all, fun _ checked => ⟨s₃.pos, (slow.trans h₃).pos, by omega, rfl, ?_⟩⟩
      rw [checked, Bool.true_and, decide_eq_true_eq, not_not, pos₄] at same
      exact same
  · exact .pure ⟨slow.trans h₃, fun no => Bool.noConfusion no⟩

theorem ends_sendAcmd {cmd : UInt8} {arg : UInt32} : Ends (sendAcmd w cmd arg) s fun _ s' => Still s s' := by
  refine (ends_sendCmd).bind fun r s₁ h₁ => ?_
  split
  · exact .pure h₁
  · exact (ends_sendCmd).bind fun r' s₂ h₂ => .pure (h₁.trans h₂)

theorem ends_probeLoop {r left : Nat} (l : Lasts w.clock r left s) :
    Ends (probeLoop w (UInt32.ofNat (w.clock.shows r)) (left + 1)) s fun _ s' => Slow s s' := by
  induction left using Nat.strong_induction_on generalizing s with
  | _ left ih =>
    refine (ends_now).bind fun t s₁ h₁ => ?_
    obtain ⟨slow, rfl, reads⟩ := h₁
    split
    · rename_i early
      obtain ⟨left', rfl, l'⟩ := l.next (by decide) reads (UInt32.not_le.mpr early)
      refine (ends_sendCmd).bind fun r s₂ h₂ => ?_
      split
      · exact .pure (slow.trans h₂.slow)
      refine (ends_clocks 1).bind fun _ s₃ h₃ => (ends_signal Signal.noConfusion).bind fun _ s₄ h₄ => ?_
      have still := (h₂.trans h₃.1).trans h₄.1
      exact (ih left' (Nat.lt_succ_self _) (l'.still still)).mono fun _ _ h => (slow.trans still.slow).trans h
    · exact .pure slow

theorem ends_readyLoop {r left : Nat} {arg : UInt32} (l : Lasts w.clock r left s) :
    Ends (readyLoop w (UInt32.ofNat (w.clock.shows r)) arg (left + 1)) s fun _ s' => Slow s s' := by
  induction left using Nat.strong_induction_on generalizing s with
  | _ left ih =>
    refine (ends_now).bind fun t s₁ h₁ => ?_
    obtain ⟨slow, rfl, reads⟩ := h₁
    split
    · rename_i early
      obtain ⟨left', rfl, l'⟩ := l.next (UInt32.le_refl _) reads (UInt32.not_le.mpr early)
      refine (ends_sendAcmd).bind fun a s₂ h₂ => ?_
      split
      · exact .pure (slow.trans h₂.slow)
      split
      · exact .pure (slow.trans h₂.slow)
      refine (ends_release).bind fun _ s₃ h₃ => (ends_signal Signal.noConfusion).bind fun _ s₄ h₄ => ?_
      refine (ends_cs).bind fun _ s₅ h₅ => ?_
      have still := ((h₂.trans h₃.1).trans h₄.1).trans h₅.1
      exact (ih left' (Nat.lt_succ_self _) (l'.still still)).mono fun _ _ h => (slow.trans still.slow).trans h
    · exact .pure slow

/-! ### Initialisation -/

/-- The card is deselected, and the fast clock is what came last, if it came at all. -/
def Inited (s : State) (ok : Bool) (s' : State) : Prop :=
  s'.selected = false ∧ ∃ new, Signal.baud runHz ∉ new ∧
    s'.log = s.log ++ new ++ if ok then [.baud runHz] else []

theorem Slow.inited {s₁ s₂ s₃ : State} {ok : Bool} (h : Slow s₁ s₂) (then_ : Inited s₂ ok s₃) :
    Inited s₁ ok s₃ := by
  obtain ⟨new, eq, none_⟩ := h.log
  obtain ⟨deselected, new', none', eq'⟩ := then_
  refine ⟨deselected, new ++ new', fun mem => (List.mem_append.mp mem).elim none_ none', ?_⟩
  rw [eq', eq, List.append_assoc s₁.log]

theorem ends_giveUp {e : SdError} : Ends (giveUp w e) s fun ok s' => Inited s ok s' := by
  refine (ends_release).bind fun _ s₁ h₁ => (ends_setCard).bind fun _ s₂ h₂ => .pure ?_
  obtain ⟨new, eq, none_⟩ := (h₁.1.trans h₂.1).slow.log
  exact ⟨h₂.2.1.trans h₁.2, new, none_, by rw [eq]; exact (List.append_nil _).symm⟩

theorem ends_initCsd : Ends (initCsd w) s fun ok s' => Inited s ok s' := by
  refine (ends_sendCmd).bind fun r s₁ h₁ => ?_
  split
  · exact (ends_giveUp).mono fun _ _ h => h₁.slow.inited h
  refine (ends_card).bind fun c s₂ h₂ => ?_
  obtain ⟨_, rfl⟩ := h₂
  refine (ends_readData).bind fun r s₃ h₃ => (ends_setCard).bind fun _ s₄ h₄ => ?_
  have slow := (h₁.slow.trans h₃.1).trans h₄.1.slow
  split
  · refine (ends_setCard).bind fun _ s₅ h₅ => (ends_release).bind fun _ s₆ h₆ => ?_
    obtain ⟨new, eq, none_⟩ := ((slow.trans h₅.1.slow).trans h₆.1.slow).log
    refine ⟨true, _, rfl, ?_, new, none_, ?_⟩
    · exact h₆.2
    · show s₆.log ++ [Signal.baud runHz] = _
      rw [eq]
      rfl
  · exact (ends_giveUp).mono fun _ _ h => slow.inited h

theorem ends_initLength : Ends (initLength w) s fun ok s' => Inited s ok s' := by
  refine (ends_card).bind fun c s₁ h₁ => ?_
  obtain ⟨_, rfl⟩ := h₁
  split
  · exact ends_initCsd
  refine (ends_sendCmd).bind fun r s₂ h₂ => ?_
  split
  · exact (ends_giveUp).mono fun _ _ h => h₂.slow.inited h
  · exact (ends_initCsd).mono fun _ _ h => h₂.slow.inited h

theorem ends_initOcr {v2 : Bool} : Ends (initOcr w v2) s fun ok s' => Inited s ok s' := by
  refine (ends_setCard).bind fun _ s₁ h₁ => ?_
  split
  · refine (ends_sendCmd).bind fun r s₂ h₂ => ?_
    have slow := h₁.1.slow.trans h₂.slow
    split
    · exact (ends_giveUp).mono fun _ _ h => slow.inited h
    split
    · exact (ends_giveUp).mono fun _ _ h => slow.inited h
    refine (ends_setCard).bind fun _ s₃ h₃ => (ends_initLength).mono fun _ _ h => ?_
    exact (slow.trans h₃.1.slow).inited h
  · refine (ends_setCard).bind fun _ s₂ h₂ => (ends_initLength).mono fun _ _ h => ?_
    exact (h₁.1.slow.trans h₂.1.slow).inited h

theorem ends_initReady {v2 : Bool} : Ends (initReady w v2) s fun ok s' => Inited s ok s' := by
  refine (ends_sendCmd).bind fun _ s₁ h₁ => (ends_now).bind fun t s₂ h₂ => (ends_fuel).bind fun n s₃ h₃ => ?_
  obtain ⟨slow, rfl, reads⟩ := h₂
  obtain ⟨rfl, rfl⟩ := h₃
  have l := lasts_start (w := w) (s := s₁) reads
  rw [reads, Nat.add_sub_cancel]
  refine (ends_readyLoop l).bind fun ready s₄ h₄ => ?_
  have slow := (h₁.slow.trans slow).trans h₄
  split
  · exact (ends_initOcr).mono fun _ _ h => slow.inited h
  · exact (ends_giveUp).mono fun _ _ h => slow.inited h

theorem ends_initVersion : Ends (initVersion w) s fun ok s' => Inited s ok s' := by
  refine (ends_sendCmd).bind fun r s₁ h₁ => ?_
  split
  · exact (ends_giveUp).mono fun _ _ h => h₁.slow.inited h
  split
  · exact (ends_initReady).mono fun _ _ h => h₁.slow.inited h
  split
  · exact (ends_giveUp).mono fun _ _ h => h₁.slow.inited h
  · exact (ends_initReady).mono fun _ _ h => h₁.slow.inited h

theorem ends_sdInit : Ends (sdInit w) s fun ok s' => Inited s ok s' := by
  refine (ends_setCard).bind fun _ s₁ h₁ => (ends_signal slow_initHz).bind fun _ s₂ h₂ => ?_
  refine (ends_cs).bind fun _ s₃ h₃ => (ends_clocks 10).bind fun _ s₄ h₄ => (ends_cs).bind fun _ s₅ h₅ => ?_
  have still := (((h₁.1.trans h₂.1).trans h₃.1).trans h₄.1).trans h₅.1
  refine (ends_now).bind fun t s₆ h₆ => (ends_fuel).bind fun n s₇ h₇ => ?_
  obtain ⟨slow, rfl, reads⟩ := h₆
  obtain ⟨rfl, rfl⟩ := h₇
  have l := lasts_start (w := w) (s := s₅) reads
  rw [reads, Nat.add_sub_cancel]
  refine (ends_probeLoop l).bind fun idle s₈ h₈ => ?_
  have slow := (still.slow.trans slow).trans h₈
  split
  · exact (ends_initVersion).mono fun _ _ h => slow.inited h
  · exact (ends_giveUp).mono fun _ _ h => slow.inited h

/-! ### Blocks -/

/-- The card is deselected, and the fast clock is left alone. -/
def Done (s s' : State) : Prop := s'.selected = false ∧ Slow s s'

/-- A block whose CRC-16 came behind it. -/
def Intact (w : World) (s : State) (r : Bool × List UInt8) (s' : State) : Prop :=
  r.1 = true → ∃ p, s.pos ≤ p ∧ p + 514 ≤ s'.pos ∧ r.2 = received w p 512 ∧
    Lib.Crc.HasCrc16 r.2 ((w.answers (p + 512)).toUInt16 <<< 8 ||| (w.answers (p + 513)).toUInt16)

theorem ends_readOnce {lba : UInt32} {buf : List UInt8} :
    Ends (readOnce w lba buf) s fun r s' => Done s s' ∧ Intact w s r s' := by
  refine (ends_cs).bind fun _ s₁ h₁ => (ends_waitIdle (by decide)).bind fun idle s₂ h₂ => ?_
  have slow := h₁.1.slow.trans h₂
  split
  · refine (ends_card).bind fun c s₃ h₃ => ?_
    obtain ⟨_, rfl⟩ := h₃
    refine (ends_sendCmd).bind fun r s₄ h₄ => ?_
    have slow := slow.trans h₄.slow
    split
    · refine (ends_readData).bind fun r s₅ h₅ => (ends_release).bind fun _ s₆ h₆ => .pure ⟨⟨h₆.2, ?_⟩, fun ok => ?_⟩
      · exact (slow.trans h₅.1).trans h₆.1.slow
      · obtain ⟨p, le, ends, data, crc⟩ := h₅.2 ok rfl
        exact ⟨p, slow.pos.trans le, ends.trans h₆.1.slow.pos, data, (hasCrc16_iff_sdCrc16).mpr crc⟩
    · exact (ends_release).bind fun _ s₅ h₅ => .pure ⟨⟨h₅.2, slow.trans h₅.1.slow⟩, fun no => Bool.noConfusion no⟩
  · exact (ends_release).bind fun _ s₃ h₃ => .pure ⟨⟨h₃.2, slow.trans h₃.1.slow⟩, fun no => Bool.noConfusion no⟩

theorem ends_sdReadBlock {lba : UInt32} {buf : List UInt8} (deselected : s.selected = false) :
    Ends (sdReadBlock w lba buf) s fun r s' => Done s s' ∧ Intact w s r s' := by
  refine (ends_card).bind fun c s₁ h₁ => ?_
  obtain ⟨_, rfl⟩ := h₁
  split
  · refine (ends_readOnce).bind fun r s₂ h₂ => ?_
    split
    · exact .pure h₂
    refine (ends_setCard).bind fun _ s₃ h₃ => (ends_readOnce).mono fun r' s₄ h₄ => ?_
    have slow := h₂.1.2.trans h₃.1.slow
    refine ⟨⟨h₄.1.1, slow.trans h₄.1.2⟩, fun ok => ?_⟩
    obtain ⟨p, le, rest⟩ := h₄.2 ok
    exact ⟨p, slow.pos.trans le, rest⟩
  · exact .pure ⟨⟨deselected, .refl _⟩, fun no => Bool.noConfusion no⟩

theorem ends_response (n : Nat) (r : UInt8) : Ends (response w n r) s fun _ s' => Still s s' := by
  induction n generalizing s r with
  | zero => exact .pure (.refl s)
  | succ n ih =>
    refine (ends_rx1).bind fun r' s₁ h => ?_
    split
    · exact .pure h.1
    · exact (ih r').mono fun _ _ h' => h.1.trans h'

theorem ends_writeData {buf : List UInt8} : Ends (writeData w buf) s fun _ s' => Slow s s' := by
  refine (ends_tx).bind fun _ s₁ h₁ => (ends_tx).bind fun _ s₂ h₂ => (ends_tx).bind fun _ s₃ h₃ => ?_
  refine (ends_response 16 _).bind fun resp s₄ h₄ => ?_
  have slow := (((h₁.trans h₂).trans h₃).trans h₄).slow
  split
  · exact (ends_waitIdle (by decide)).mono fun _ _ h => slow.trans h
  · exact .pure slow

theorem ends_sdWriteBlock {lba : UInt32} {buf : List UInt8} (deselected : s.selected = false) :
    Ends (sdWriteBlock w lba buf) s fun _ s' => Done s s' := by
  refine (ends_card).bind fun c s₁ h₁ => ?_
  obtain ⟨_, rfl⟩ := h₁
  split
  · refine (ends_cs).bind fun _ s₂ h₂ => (ends_waitIdle (by decide)).bind fun idle s₃ h₃ => ?_
    have slow := h₂.1.slow.trans h₃
    split
    · refine (ends_card).bind fun c s₄ h₄ => ?_
      obtain ⟨_, rfl⟩ := h₄
      refine (ends_sendCmd).bind fun r s₅ h₅ => ?_
      have slow := slow.trans h₅.slow
      split
      · refine (ends_writeData).bind fun ok s₆ h₆ => (ends_release).bind fun _ s₇ h₇ => .pure ⟨h₇.2, ?_⟩
        exact (slow.trans h₆).trans h₇.1.slow
      · exact (ends_release).bind fun _ s₆ h₆ => .pure ⟨h₆.2, slow.trans h₆.1.slow⟩
    · exact (ends_release).bind fun _ s₄ h₄ => .pure ⟨h₄.2, slow.trans h₄.1.slow⟩
  · exact .pure ⟨deselected, .refl _⟩

theorem ends_sdAlive (deselected : s.selected = false) : Ends (sdAlive w) s fun _ s' => Done s s' := by
  refine (ends_card).bind fun c s₁ h₁ => ?_
  obtain ⟨_, rfl⟩ := h₁
  split
  · refine Ends.bind (Q := fun _ s' => Done s₁ s') ?_ fun r s₂ h₂ => .pure h₂
    refine (ends_cs).bind fun _ s₂ h₂ => (ends_waitIdle (by decide)).bind fun idle s₃ h₃ => ?_
    have slow := h₂.1.slow.trans h₃
    split
    · refine (ends_sendCmd).bind fun r s₄ h₄ => (ends_release).bind fun _ s₅ h₅ => .pure ⟨h₅.2, ?_⟩
      exact (slow.trans h₄.slow).trans h₅.1.slow
    · exact (ends_release).bind fun _ s₄ h₄ => .pure ⟨h₄.2, slow.trans h₄.1.slow⟩
  · exact .pure ⟨deselected, .refl _⟩

/-- Whatever the card answers, on every clock that advances: each call returns and leaves the card deselected;
an initialisation selects the fast clock at its end and only when it succeeds, and the others never do; and a
block that is read has the CRC that the card sent after it. -/
theorem sd_protocol (w : World) (s : State) : Ends (sdInit w) s (fun ok s' => Inited s ok s') ∧
    (s.selected = false →
      (∀ lba buf, Ends (sdReadBlock w lba buf) s fun r s' => Done s s' ∧ Intact w s r s') ∧
      (∀ lba buf, Ends (sdWriteBlock w lba buf) s fun _ s' => Done s s') ∧
      Ends (sdAlive w) s fun _ s' => Done s s') :=
  ⟨ends_sdInit, fun deselected => ⟨fun _ _ => ends_sdReadBlock deselected,
    fun _ _ => ends_sdWriteBlock deselected, ends_sdAlive deselected⟩⟩

end RPCortex.Sd
