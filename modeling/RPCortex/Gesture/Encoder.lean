import RPCortex.Gesture.Queue

/-! The rotary encoder, `novainput.cpp`: a table of seven states that turns samples of two pins into steps.
Where consecutive samples differ in one pin at most, the steps count the turns; a sample that the table cannot
account for emits nothing. -/

namespace RPCortex.Gesture

/-- The levels of the two pins. -/
structure Pins where
  a : Bool
  b : Bool
deriving DecidableEq

/-- Both pins high. -/
def detent : Pins := ⟨true, true⟩

/-- `(a << 1) | b`. -/
def Pins.code (p : Pins) : Nat := p.a.toNat <<< 1 ||| p.b.toNat

def dirCw : UInt8 := 0x10

def dirCcw : UInt8 := 0x20

/-- `kTable`. -/
def kTable : List UInt8 := [
  0x0, 0x2, 0x4, 0x0,
  0x3, 0x0, 0x1, 0x10,
  0x3, 0x2, 0x0, 0x0,
  0x3, 0x2, 0x1, 0x0,
  0x6, 0x0, 0x4, 0x0,
  0x6, 0x5, 0x0, 0x20,
  0x6, 0x5, 0x4, 0x0]

/-- The fields of `Input` that `poll_encoder` uses, and what it pushed. -/
structure Decoder where
  state : UInt8
  rev : Bool
  pushed : List Event

/-- `R_START`, with nothing pushed. -/
def Decoder.start (rev : Bool) : Decoder := ⟨0, rev, []⟩

/-- The event that the flags of a state push. -/
def emitted (rev : Bool) (st : UInt8) : Option Event :=
  if st &&& dirCw ≠ 0 then some (if rev then .rotCcw else .rotCw)
  else if st &&& dirCcw ≠ 0 then some (if rev then .rotCw else .rotCcw)
  else none

/-- `poll_encoder`, with the levels that `fw_gpio_get` gives. -/
def Decoder.pollEncoder (d : Decoder) (a b : Option Bool) : Decoder :=
  match a, b with
  | some a, some b =>
    let st := kTable.getD ((d.state &&& 0x07).toNat * 4 + Pins.code ⟨a, b⟩) 0
    { d with state := st, pushed := d.pushed ++ (emitted d.rev st).toList }
  | _, _ => d

/-- The decoder after some polls. -/
def Decoder.polls (d : Decoder) (levels : List (Option Bool × Option Bool)) : Decoder :=
  levels.foldl (fun d l => d.pollEncoder l.1 l.2) d

/-! ### Turns -/

/-- The sample of a poll, where both pins could be read. -/
def sample (l : Option Bool × Option Bool) : Option Pins :=
  match l with
  | (some a, some b) => some ⟨a, b⟩
  | _ => none

/-- The samples of some polls. -/
def samples (levels : List (Option Bool × Option Bool)) : List Pins := levels.filterMap sample

/-- At most one pin differs. -/
def Near (p q : Pins) : Prop := p.a = q.a ∨ p.b = q.b

instance (p q : Pins) : Decidable (Near p q) := inferInstanceAs (Decidable (_ ∨ _))

/-- The pins after a quarter turn clockwise: from the detent `a` falls first. -/
def Pins.next (p : Pins) : Pins := ⟨!p.b, p.a⟩

/-- The quarter turns from one sample to the next, clockwise. -/
def quarter (p q : Pins) : Int := if q = p.next then 1 else if p = q.next then -1 else 0

/-- The quarter turns of some samples behind a first one. -/
def quarters : Pins → List Pins → Int
  | _, [] => 0
  | p, q :: s => quarter p q + quarters q s

/-- The steps clockwise less the steps anticlockwise. -/
def Decoder.steps (d : Decoder) : Int :=
  d.pushed.count (if d.rev then .rotCcw else .rotCw) - d.pushed.count (if d.rev then .rotCw else .rotCcw)

variable {d : Decoder} {p q : Pins} {a b : Bool} {levels : List (Option Bool × Option Bool)}

theorem samples_append (l : Option Bool × Option Bool) :
    samples (levels ++ [l]) = samples levels ++ (sample l).toList := by
  rw [samples, samples, List.filterMap_append]
  cases h : sample l <;> simp [h]

theorem polls_append (l : Option Bool × Option Bool) :
    d.polls (levels ++ [l]) = (d.polls levels).pollEncoder l.1 l.2 := by
  rw [Decoder.polls, Decoder.polls, List.foldl_append]
  rfl

theorem quarters_append (p : Pins) (s : List Pins) (q : Pins) :
    quarters p (s ++ [q]) = quarters p s + quarter (s.getLastD p) q := by
  induction s generalizing p with
  | nil => simp [quarters]
  | cons r s ih =>
    rw [List.cons_append, quarters, quarters, ih, List.getLastD_cons, add_assoc]

/-! ### The table -/

/-- The states that the table leads to. -/
def states : List UInt8 := [0x0, 0x1, 0x2, 0x3, 0x4, 0x5, 0x6, 0x10, 0x20]

/-- The next state. -/
def onward (st : UInt8) (p : Pins) : UInt8 := kTable.getD ((st &&& 0x07).toNat * 4 + p.code) 0

/-- The pins that a state stands for. -/
def pinsAt (st : UInt8) : Pins :=
  [detent, ⟨true, false⟩, ⟨false, true⟩, ⟨false, false⟩, ⟨true, false⟩, ⟨false, true⟩, ⟨false, false⟩].getD
    (st &&& 0x07).toNat detent

/-- The quarter turns of a state from its detent. -/
def offset (st : UInt8) : Int := [0, 3, 1, 2, -1, -3, -2].getD (st &&& 0x07).toNat 0

/-- The step that a state emits. -/
def stepOf (st : UInt8) : Int := if st &&& dirCw ≠ 0 then 1 else if st &&& dirCcw ≠ 0 then -1 else 0

set_option maxRecDepth 8000 in
theorem onward_mem : ∀ st ∈ states, ∀ a b, onward st ⟨a, b⟩ ∈ states := by decide

/-- A sample that is near is followed, and a whole turn of four quarters is one step. -/
theorem onward_near : ∀ st ∈ states, ∀ a b, Near (pinsAt st) ⟨a, b⟩ →
    pinsAt (onward st ⟨a, b⟩) = ⟨a, b⟩ ∧
      offset (onward st ⟨a, b⟩) + 4 * stepOf (onward st ⟨a, b⟩) = offset st + quarter (pinsAt st) ⟨a, b⟩ := by
  decide +kernel

set_option maxRecDepth 8000 in
/-- Where both pins are high the decoder starts again, and from there nothing is emitted. -/
theorem onward_detent : ∀ st ∈ states, onward st detent &&& 0x07 = 0 ∧
    (st &&& 0x07 = 0 → ∀ a b, emitted true (onward st ⟨a, b⟩) = none ∧ emitted false (onward st ⟨a, b⟩) = none) := by
  decide

set_option maxRecDepth 8000 in
theorem emitted_detent : ∀ st ∈ states, ∀ rev a b, emitted rev (onward st ⟨a, b⟩) ≠ none → Pins.mk a b = detent := by
  decide

/-! ### Polls -/

theorem pollEncoder_sample : d.pollEncoder (some a) (some b) =
    { d with
      state := onward d.state ⟨a, b⟩
      pushed := d.pushed ++ (emitted d.rev (onward d.state ⟨a, b⟩)).toList } := rfl

theorem pollEncoder_none {l : Option Bool × Option Bool} (none_ : sample l = none) :
    d.pollEncoder l.1 l.2 = d := by
  obtain ⟨a, b⟩ := l
  cases a with
  | none => rfl
  | some a =>
    cases b with
    | none => rfl
    | some b => cases none_

/-- A poll with a sample is one with levels that can be read. -/
theorem sample_some {l : Option Bool × Option Bool} (some_ : sample l = some p) : l = (some p.a, some p.b) := by
  obtain ⟨a, b⟩ := l
  cases a with
  | none => cases some_
  | some a =>
    cases b with
    | none => cases some_
    | some b =>
      cases some_
      rfl

theorem steps_pollEncoder (d : Decoder) (a b : Bool) :
    (d.pollEncoder (some a) (some b)).steps = d.steps + stepOf (onward d.state ⟨a, b⟩) := by
  rw [pollEncoder_sample]
  unfold Decoder.steps emitted stepOf
  dsimp only
  generalize onward d.state ⟨a, b⟩ = st
  by_cases cw : st &&& dirCw ≠ 0
  · rw [if_pos cw, if_pos cw]
    cases d.rev <;> simp [List.count_append] <;> omega
  · rw [if_neg cw, if_neg cw]
    by_cases ccw : st &&& dirCcw ≠ 0
    · rw [if_pos ccw, if_pos ccw]
      cases d.rev <;> simp [List.count_append] <;> omega
    · rw [if_neg ccw, if_neg ccw, Option.toList_none, List.append_nil, add_zero]

/-- What holds of the decoder whatever the samples are. -/
theorem polls_state (rev : Bool) (levels : List (Option Bool × Option Bool)) :
    ((Decoder.start rev).polls levels).state ∈ states ∧
      ((samples levels).getLastD detent = detent → ((Decoder.start rev).polls levels).state &&& 0x07 = 0) := by
  induction levels using List.reverseRecOn with
  | nil => exact ⟨List.mem_cons_self, fun _ => (by decide : (0 : UInt8) &&& 0x07 = 0)⟩
  | append_singleton levels l ih =>
    rw [polls_append, samples_append]
    cases h : sample l with
    | none =>
      rw [pollEncoder_none h, Option.toList_none, List.append_nil]
      exact ih
    | some p =>
      rw [sample_some h, pollEncoder_sample]
      refine ⟨onward_mem _ ih.1 _ _, fun last => ?_⟩
      rw [Option.toList_some, List.getLastD_concat] at last
      rw [last]
      exact (onward_detent _ ih.1).1

/-- Where consecutive samples are near, the state follows the pins, and what is not yet a step is its offset. -/
theorem polls_near (rev : Bool) (near : (detent :: samples levels).IsChain Near) :
    pinsAt ((Decoder.start rev).polls levels).state = (samples levels).getLastD detent ∧
      offset ((Decoder.start rev).polls levels).state + 4 * ((Decoder.start rev).polls levels).steps =
        quarters detent (samples levels) := by
  induction levels using List.reverseRecOn with
  | nil => exact ⟨(by decide : pinsAt 0 = detent), by cases rev <;> decide⟩
  | append_singleton levels l ih =>
    rw [samples_append] at near
    rw [polls_append, samples_append]
    cases h : sample l with
    | none =>
      rw [h, Option.toList_none, List.append_nil] at near
      rw [pollEncoder_none h, Option.toList_none, List.append_nil]
      exact ih near
    | some p =>
      rw [h, Option.toList_some, ← List.cons_append, List.isChain_append] at near
      obtain ⟨front, -, last⟩ := near
      obtain ⟨pins, counted⟩ := ih front
      have here : Near (pinsAt ((Decoder.start rev).polls levels).state) p := by
        rw [pins]
        exact last _ (by rw [List.getLast?_cons, Option.mem_some_iff, List.getLastD_eq_getLast?]) p rfl
      obtain ⟨followed, moved⟩ := onward_near _ (polls_state rev levels).1 p.a p.b here
      rw [sample_some h, Option.toList_some, List.getLastD_concat, quarters_append, ← pins, ← counted,
        steps_pollEncoder]
      refine ⟨followed, ?_⟩
      rw [pollEncoder_sample]
      dsimp only at moved ⊢
      linarith

/-- With both pins high the steps are the net turns, where consecutive samples differ in one pin at most; and
whatever the samples are, a poll pushes a step only where it finds both pins high and the one before did not. -/
theorem encoder_exact (rev : Bool) (levels : List (Option Bool × Option Bool)) :
    ((detent :: samples levels).IsChain Near → (samples levels).getLastD detent = detent →
      4 * ((Decoder.start rev).polls levels).steps = quarters detent (samples levels)) ∧
    ∀ l, ((Decoder.start rev).polls (levels ++ [l])).pushed = ((Decoder.start rev).polls levels).pushed ∨
      sample l = some detent ∧ (samples levels).getLastD detent ≠ detent ∧
        ∃ e, ((Decoder.start rev).polls (levels ++ [l])).pushed =
          ((Decoder.start rev).polls levels).pushed ++ [e] := by
  refine ⟨fun near home => ?_, fun l => ?_⟩
  · obtain ⟨-, counted⟩ := polls_near rev near
    have start := (polls_state rev levels).2 home
    rw [offset, start] at counted
    simpa using counted
  · obtain ⟨known, home⟩ := polls_state rev levels
    rw [polls_append]
    generalize (Decoder.start rev).polls levels = d at known home ⊢
    cases h : sample l with
    | none =>
      rw [pollEncoder_none h]
      exact .inl rfl
    | some p =>
      rw [sample_some h, pollEncoder_sample]
      dsimp only
      cases out : emitted d.rev (onward d.state ⟨p.a, p.b⟩) with
      | none => exact .inl (List.append_nil _)
      | some e =>
        have pushes : emitted d.rev (onward d.state ⟨p.a, p.b⟩) ≠ none := out ▸ Option.some_ne_none e
        refine .inr ⟨congrArg some (emitted_detent _ known _ _ _ pushes), fun same => pushes ?_, e, rfl⟩
        have idle := (onward_detent _ known).2 (home same) p.a p.b
        cases d.rev
        · exact idle.2
        · exact idle.1

/-- A turn clockwise that goes back once on its way. -/
theorem encoder_exact_turn : 4 * ((Decoder.start false).polls [(some false, some true), (some false, some false),
      (some false, some true), (none, some true), (some false, some false), (some true, some false),
      (some true, some true)]).steps = 4 :=
  (encoder_exact false _).1 (by decide) (by decide)

end RPCortex.Gesture
