import RPCortex.Pipeline.Segment

/-! The text of a capture, `out.cpp`: a write is filtered on its way into the buffer, a line is formatted into the
room that is left and filtered there. -/

namespace RPCortex.Pipeline

/-- The capture of the task that writes: `g_cap`, `g_cap_len`, `g_cap_over` and `g_cap_esc`.  There is a place for
the terminator behind the text. -/
structure Capture where
  buf : List UInt8
  len : Nat
  within : len < buf.length
  capOver : Bool
  esc : Nat

namespace Capture

/-- `begin` with a buffer that is not empty. -/
def begin (buf : List UInt8) (some_ : 0 < buf.length) : Capture where
  buf := buf.set 0 0
  len := 0
  within := by rwa [List.length_set]
  capOver := false
  esc := 0

/-- The text: what stands in front of the terminator. -/
def text (s : Capture) : List UInt8 := s.buf.take s.len

def terminate (s : Capture) : Capture :=
  { s with buf := s.buf.set s.len 0, within := by rw [List.length_set]; exact s.within }

/-- The body of the loop of `cap_append`, with the escapes' state, and whether the loop goes on. -/
def appendStep (s : Capture × Nat) (c : UInt8) : Bool × Capture × Nat :=
  let r := strip s.2 c
  match r.2 with
  | none => (true, s.1, r.1)
  | some c =>
    if h : s.1.len + 1 < s.1.buf.length then
      (true, { s.1 with
        buf := s.1.buf.set s.1.len c
        len := s.1.len + 1
        within := by rw [List.length_set]; exact h }, s.2)
    else (false, { s.1 with capOver := true }, s.2)

/-- The loop of `cap_append` over `n` bytes from the place `i` of its source. -/
def appendLoop (src : Capture → Nat → UInt8) : (n i : Nat) → Capture × Nat → Capture × Nat
  | 0, _, s => s
  | n + 1, i, s =>
    let r := appendStep s (src s.1 i)
    if r.1 then appendLoop src n (i + 1) r.2 else r.2

/-- `cap_append`. -/
def append (src : Capture → Nat → UInt8) (n : Nat) (s : Capture × Nat) : Capture × Nat :=
  let r := appendLoop src n 0 s
  (r.1.terminate, r.2)

/-- `out_write`. -/
def write (s : Capture) (data : List UInt8) : Capture :=
  let r := append (fun _ i => data.getD i 0) data.length (s, s.esc)
  { r.1 with esc := r.2 }

/-- The newline of a line, which has an escape state of its own. -/
def newline (s : Capture) : Capture := (append (fun _ _ => 0x0A) 1 (s, 0)).1

/-- `vsnprintf` at the end of the text, with the room that is left. -/
def format (s : Capture) (line : List UInt8) : Capture :=
  let room := s.buf.length - 1 - s.len
  { s with
    buf := s.buf.take s.len ++ line.take room ++ [0] ++ s.buf.drop (s.len + min line.length room + 1)
    within := by simp only [List.length_append, List.length_take, List.length_singleton]; have := s.within; omega
    capOver := s.capOver || decide (line.length > room) }

/-- `out_multi`: the line that its arguments are formatted to is read back through the filter. -/
def multi (s : Capture) (line : List UInt8) : Capture :=
  let got := min line.length (s.buf.length - 1 - s.len)
  (append (fun t i => t.buf.getD (s.len + i) 0) got (s.format line, 0)).1.newline

/-- `out_blank`. -/
def blank (s : Capture) : Capture := s.newline

end Capture

/-- What a call does to the capture. -/
def Output.run (s : Capture) : Output → Capture
  | .write data => s.write data
  | .multi line => s.multi line
  | .blank => s.blank

/-! ### The filter -/

variable {s : Capture} {st esc n i : Nat} {c : UInt8} {bytes rest line : List UInt8}

theorem texts_nil : texts esc [] = (esc, []) := rfl

theorem texts_cons : texts esc (c :: rest) =
    ((texts (strip esc c).1 rest).1, (strip esc c).2.toList ++ (texts (strip esc c).1 rest).2) := rfl

theorem texts_append : texts esc (bytes ++ rest) =
    ((texts (texts esc bytes).1 rest).1, (texts esc bytes).2 ++ (texts (texts esc bytes).1 rest).2) := by
  induction bytes generalizing esc with
  | nil => rfl
  | cons c bytes ih =>
    rw [List.cons_append, texts_cons, ih, texts_cons, List.append_assoc]

/-- Outside an escape and without one, all is text. -/
theorem texts_plain (plain : 0x1B ∉ bytes) : texts 0 bytes = (0, bytes) := by
  induction bytes with
  | nil => rfl
  | cons c bytes ih =>
    have other : ¬c = 0x1B := fun eq => plain (eq ▸ List.mem_cons_self)
    have here : strip 0 c = (0, some c) := by
      rw [strip, if_neg (by decide), if_neg (by decide), if_neg other]
    rw [texts_cons, here, ih fun mem => plain (List.mem_cons_of_mem _ mem)]
    rfl

theorem strip_text {c' : UInt8} (is : (strip esc c).2 = some c') : (strip esc c).1 = esc ∧ c' = c := by
  unfold strip at is ⊢
  split_ifs at is ⊢
  simp at is
  exact ⟨rfl, is.symm⟩

theorem texts_length : (texts esc bytes).2.length ≤ bytes.length := by
  induction bytes generalizing esc with
  | nil => exact Nat.le_refl _
  | cons c bytes ih =>
    rw [texts_cons, List.length_append, List.length_cons]
    have one : (strip esc c).2.toList.length ≤ 1 := by cases (strip esc c).2 <;> simp
    have := @ih (strip esc c).1
    omega

namespace Capture

/-- The room for text that is left. -/
def room (s : Capture) : Nat := s.buf.length - 1 - s.len

theorem room_eq : s.len + s.room + 1 = s.buf.length := by
  have := s.within
  unfold room
  omega

theorem text_length : s.text.length = s.len := List.length_take_of_le (Nat.le_of_lt s.within)

/-- The bytes `bytes` appended one by one. -/
def appendAll : List UInt8 → Capture × Nat → Capture × Nat
  | [], s => s
  | c :: rest, s => if (appendStep s c).1 then appendAll rest (appendStep s c).2 else (appendStep s c).2

theorem appendStep_escape (is : (strip st c).2 = none) : appendStep (s, st) c = (true, s, (strip st c).1) := by
  rw [appendStep]
  dsimp only
  rw [is]

theorem appendStep_text {c' : UInt8} (is : (strip st c).2 = some c') :
    appendStep (s, st) c = if h : s.len + 1 < s.buf.length then
      (true, { s with
        buf := s.buf.set s.len c
        len := s.len + 1
        within := by rw [List.length_set]; exact h }, st)
    else (false, { s with capOver := true }, st) := by
  rw [appendStep]
  dsimp only
  rw [is, (strip_text is).2]

/-- What appending leaves: of the text, what fits. -/
structure Appended (bytes : List UInt8) (s t : Capture × Nat) : Prop where
  size : t.1.buf.length = s.1.buf.length
  text : t.1.text = s.1.text ++ (texts s.2 bytes).2.take s.1.room
  flag : t.1.capOver = (s.1.capOver || decide (s.1.room < (texts s.2 bytes).2.length))
  state : (texts s.2 bytes).2.length ≤ s.1.room → t.2 = (texts s.2 bytes).1
  esc : t.1.esc = s.1.esc

/-- The capture with a byte behind its text. -/
def stored (s : Capture) (c : UInt8) (h : s.len + 1 < s.buf.length) : Capture :=
  { s with
    buf := s.buf.set s.len c
    len := s.len + 1
    within := by rw [List.length_set]; exact h }

theorem stored_text (h : s.len + 1 < s.buf.length) : (stored s c h).text = s.text ++ [c] := by
  unfold stored Capture.text
  dsimp only
  rw [List.take_add_one, List.take_set_of_le (Nat.le_refl _), List.getElem?_set_self s.within]
  rfl

theorem stored_room (h : s.len + 1 < s.buf.length) : s.room = (stored s c h).room + 1 := by
  simp only [stored, room, List.length_set]
  omega

theorem appendAll_appended (p : Capture × Nat) : Appended bytes p (appendAll bytes p) := by
  induction bytes generalizing p with
  | nil =>
    refine ⟨rfl, ?_, ?_, fun _ => rfl, rfl⟩
    · rw [texts_nil, List.take_nil, List.append_nil]
      rfl
    · rw [texts_nil]
      simp [appendAll]
  | cons c bytes ih =>
    obtain ⟨s, st⟩ := p
    rw [appendAll]
    cases is : (strip st c).2 with
    | none =>
      rw [appendStep_escape is, if_pos rfl]
      obtain ⟨size, text, flag, state, esc⟩ := ih (s, (strip st c).1)
      have none_ : texts st (c :: bytes) = texts (strip st c).1 bytes := by
        rw [texts_cons, is]
        rfl
      refine ⟨size, ?_, ?_, ?_, esc⟩
      · rw [none_]
        exact text
      · rw [none_]
        exact flag
      · rw [none_]
        exact state
    | some c' =>
      have same := (strip_text is).1
      have one : texts st (c :: bytes) = ((texts st bytes).1, c :: (texts st bytes).2) := by
        rw [texts_cons, is, same, (strip_text is).2]
        rfl
      rw [appendStep_text is]
      by_cases h : s.len + 1 < s.buf.length
      · rw [dif_pos h, if_pos rfl]
        obtain ⟨size, text, flag, state, esc⟩ := ih (stored s c h, st)
        have less := @stored_room s c h
        refine ⟨?_, ?_, ?_, ?_, esc⟩
        · apply size.trans
          exact List.length_set
        · rw [one, less, List.take_succ_cons]
          apply text.trans
          rw [stored_text, List.append_assoc]
          rfl
        · rw [one, less]
          apply flag.trans
          simp only [List.length_cons, Nat.add_lt_add_iff_right]
          rfl
        · rw [one, less]
          exact fun fits => state (Nat.le_of_succ_le_succ fits)
      · rw [dif_neg h, if_neg Bool.false_ne_true]
        have full : s.room = 0 := by
          have := s.within
          unfold room
          omega
        refine ⟨rfl, ?_, ?_, ?_, rfl⟩
        · rw [full, List.take_zero, List.append_nil]
          rfl
        · rw [full, one]
          simp
        · rw [full, one]
          exact fun fits => absurd fits (Nat.not_succ_le_zero _)

/-- A loop whose source holds the bytes appends these. -/
theorem appendLoop_all {src : Capture → Nat → UInt8} {P : Nat → Capture × Nat → Prop}
    (reads : ∀ i (h : i < bytes.length) s, P i s → src s.1 i = bytes[i])
    (keeps : ∀ i (h : i < bytes.length) s, P i s → P (i + 1) (appendStep s bytes[i]).2)
    (p : Capture × Nat) (holds : P i p) (rest : i + n = bytes.length) :
    appendLoop src n i p = appendAll (bytes.drop i) p := by
  induction n generalizing i p with
  | zero =>
    rw [List.drop_eq_nil_of_le (by omega)]
    rfl
  | succ n ih =>
    have lt : i < bytes.length := by omega
    rw [List.drop_eq_getElem_cons lt, appendLoop, appendAll, reads i lt p holds]
    split
    · exact ih _ (keeps i lt p holds) (by omega)
    · rfl

/-- The text ends in a NUL. -/
def Terminated (s : Capture) : Prop := s.buf.get ⟨s.len, s.within⟩ = 0

theorem terminate_terminated : s.terminate.Terminated := by
  unfold Terminated terminate
  rw [List.get_eq_getElem, List.getElem_set_self]

theorem terminate_text : s.terminate.text = s.text := List.take_set_of_le (Nat.le_refl _)

/-- Appending what a source holds, with the terminator behind. -/
theorem append_appended {src : Capture → Nat → UInt8} {p : Capture × Nat}
    (all : appendLoop src n 0 p = appendAll bytes p) :
    Appended bytes p (append src n p) ∧ (append src n p).1.Terminated := by
  obtain ⟨size, text, flag, state, esc⟩ := @appendAll_appended bytes p
  unfold append
  dsimp only
  rw [all]
  refine ⟨⟨?_, ?_, flag, state, esc⟩, terminate_terminated⟩
  · rw [← size]
    exact List.length_set
  · rw [← text]
    exact terminate_text

theorem write_appended {data : List UInt8} :
    Appended data (s, s.esc) (append (fun _ i => data.getD i 0) data.length (s, s.esc)) ∧ (s.write data).Terminated := by
  apply append_appended
  refine @appendLoop_all _ _ _ _ (fun _ _ => True) (fun i h _ _ => ?_) (fun _ _ _ _ => trivial) _ trivial
    (Nat.zero_add _)
  exact List.getD_eq_getElem data 0 h

theorem write_spec (data : List UInt8) : (s.write data).buf.length = s.buf.length ∧
    (s.write data).text = s.text ++ (texts s.esc data).2.take s.room ∧
    (s.write data).capOver = (s.capOver || decide (s.room < (texts s.esc data).2.length)) ∧
    ((texts s.esc data).2.length ≤ s.room → (s.write data).esc = (texts s.esc data).1) := by
  obtain ⟨⟨size, text, flag, state, -⟩, -⟩ := @write_appended s data
  exact ⟨size, text, flag, state⟩

theorem newline_appended :
    Appended [0x0A] (s, 0) (append (fun _ _ => 0x0A) 1 (s, 0)) ∧ s.newline.Terminated := append_appended rfl

theorem texts_newline : texts 0 [0x0A] = (0, [0x0A]) := rfl

/-- Where there is room, a newline is appended; else the flag is set. -/
theorem newline_spec : s.newline.buf.length = s.buf.length ∧ s.newline.esc = s.esc ∧
    s.newline.text = s.text ++ [0x0A].take s.room ∧ s.newline.capOver = (s.capOver || decide (s.room = 0)) := by
  obtain ⟨⟨size, text, flag, -, esc⟩, -⟩ := @newline_appended s
  refine ⟨size, esc, text, flag.trans ?_⟩
  rw [texts_newline]
  simp

theorem appendStep_buf (p : Capture × Nat) : (appendStep p c).2.1.len ≤ p.1.len + 1 ∧
    ∀ k, k ≠ p.1.len → (appendStep p c).2.1.buf.getD k 0 = p.1.buf.getD k 0 := by
  obtain ⟨s, st⟩ := p
  cases is : (strip st c).2 with
  | none =>
    rw [appendStep_escape is]
    exact ⟨Nat.le_succ _, fun _ _ => rfl⟩
  | some c' =>
    rw [appendStep_text is]
    split
    · refine ⟨Nat.le_refl _, fun k ne => ?_⟩
      rw [List.getD_eq_getElem?_getD, List.getD_eq_getElem?_getD, List.getElem?_set_ne (Ne.symm ne)]
    · exact ⟨Nat.le_succ _, fun _ _ => rfl⟩

theorem format_spec : (s.format line).buf.length = s.buf.length ∧ (s.format line).text = s.text ∧
    ∀ j (h : j < (line.take s.room).length),
      (s.format line).buf.getD (s.len + j) 0 = (line.take s.room)[j] := by
  have front : (s.buf.take s.len).length = s.len := text_length
  have whole := @room_eq s
  refine ⟨?_, ?_, fun j h => ?_⟩
  · simp only [format, List.length_append, List.length_take, List.length_drop, List.length_singleton]
    unfold room at whole
    omega
  · unfold text format
    dsimp only
    rw [List.append_assoc, List.append_assoc, List.take_append_of_le_length (by omega), List.take_take, Nat.min_self]
  · have inside : s.len + j < (s.buf.take s.len ++ line.take s.room).length := by
      rw [List.length_append, front]
      omega
    unfold format
    dsimp only
    rw [show s.buf.length - 1 - s.len = s.room from rfl, List.append_assoc (_ ++ _), List.getD_eq_getElem?_getD, List.getElem?_append_left inside,
      List.getElem?_append_right (by omega), front, Nat.add_sub_cancel_left]
    exact congrArg (Option.getD · 0) (List.getElem?_eq_getElem h)

/-- Reading the line back over the text that is written: the text never gets past the place that is read. -/
theorem format_appended :
    Appended (line.take s.room) (s.format line, 0) (append (fun t i => t.buf.getD (s.len + i) 0)
      (min line.length (s.buf.length - 1 - s.len)) (s.format line, 0)) := by
  have got : min line.length (s.buf.length - 1 - s.len) = (line.take s.room).length := by
    rw [List.length_take, Nat.min_comm]
    rfl
  rw [got]
  refine (append_appended ?_).1
  refine @appendLoop_all _ _ _ _ (fun i q => q.1.len ≤ s.len + i ∧ ∀ j, i ≤ j → (h : j < (line.take s.room).length) →
      q.1.buf.getD (s.len + j) 0 = (line.take s.room)[j])
    (fun i h q inv => inv.2 i (Nat.le_refl _) h) (fun i h q inv => ?_) _
    ⟨Nat.le_refl _, fun j _ h => format_spec.2.2 j h⟩ (Nat.zero_add _)
  obtain ⟨len, others⟩ := @appendStep_buf (line.take s.room)[i] q
  refine ⟨by have := inv.1; omega, fun j le h => ?_⟩
  rw [others _ (by have := inv.1; omega)]
  exact inv.2 j (by omega) h

/-- A line, of what fits of it raw, and a newline where there is room then. -/
theorem multi_spec : (s.multi line).buf.length = s.buf.length ∧ (s.multi line).esc = s.esc ∧
    (s.multi line).text = s.text ++ ((texts 0 (line.take s.room)).2 ++ [0x0A]).take s.room ∧
    (s.multi line).capOver = (s.capOver || decide (s.room < line.length) ||
      decide (s.room ≤ (texts 0 (line.take s.room)).2.length)) ∧ (s.multi line).Terminated := by
  obtain ⟨size, text, flag, -, esc⟩ := @format_appended s line
  obtain ⟨size', text', -⟩ := @format_spec s line
  have same : (s.format line).room = s.room := by
    unfold room
    rw [size']
    rfl
  have fits : (texts 0 (line.take s.room)).2.length ≤ s.room :=
    texts_length.trans (List.length_take_le _ _)
  unfold multi
  dsimp only
  generalize (append (fun t i => t.buf.getD (s.len + i) 0) (min line.length (s.buf.length - 1 - s.len))
    (s.format line, 0)).1 = t at size text flag esc ⊢
  dsimp only at size text flag esc
  rw [same, List.take_of_length_le fits, text'] at text
  have left : t.room = s.room - (texts 0 (line.take s.room)).2.length := by
    have long : t.len = s.len + (texts 0 (line.take s.room)).2.length := by
      rw [← @text_length t, text, List.length_append, text_length]
    have := @room_eq s
    have := @room_eq t
    omega
  obtain ⟨size'', esc', text'', flag'⟩ := @newline_spec t
  refine ⟨by omega, esc'.trans esc, ?_, ?_, newline_appended.2⟩
  · rw [text'', text, left, List.append_assoc, List.take_append, List.take_of_length_le fits]
  · have closed : decide ((s.format line).room < (texts 0 (line.take s.room)).2.length) = false := by
      rw [same]
      exact decide_eq_false (by omega)
    rw [flag', flag, closed, Bool.or_false, left]
    congr 1
    simp only [decide_eq_decide]
    omega

/-! ### Runs -/

variable {w : List UInt8}

/-- What the text is of the bytes that were put out: the whole of their text, or what a full buffer holds of it. -/
def Inv (w : List UInt8) (s : Capture) : Prop :=
  s.Terminated ∧ ((s.text = (texts 0 w).2 ∧ s.esc = (texts 0 w).1) ∨
    (s.room = 0 ∧ s.capOver = true ∧ s.text <+: (texts 0 w).2))

/-- The buffer is full, or the call is one that it takes faithfully.  A write always is.  A line and a blank line are
where no escape of a write is open, and the line closes its own; the line, if it does not fit, has no escape in the
part of it that does, or only escapes behind that. -/
def Faithful (s : Capture) : Output → Prop
  | .write _ => True
  | .multi line => s.room = 0 ∨ (s.esc = 0 ∧ (texts 0 line).1 = 0 ∧
      ((texts 0 (line.take s.room)).2 = (texts 0 line).2 ∨ 0x1B ∉ line.take s.room))
  | .blank => s.room = 0 ∨ s.esc = 0

theorem begin_inv {buf : List UInt8} {some_ : 0 < buf.length} : Inv [] (begin buf some_) := by
  refine ⟨?_, .inl ⟨rfl, rfl⟩⟩
  unfold Terminated begin
  rw [List.get_eq_getElem, List.getElem_set_self]

/-- Text behind the text, as far as there is room. -/
theorem inv_of_take {t : Capture} {more : List UInt8} (size : t.buf.length = s.buf.length) (ended : t.Terminated)
    (whole : s.text = (texts 0 w).2) (text : t.text = s.text ++ (texts (texts 0 w).1 more).2.take s.room)
    (flag : s.room < (texts (texts 0 w).1 more).2.length → t.capOver = true)
    (state : (texts (texts 0 w).1 more).2.length ≤ s.room → t.esc = (texts (texts 0 w).1 more).1) :
    Inv (w ++ more) t := by
  refine ⟨ended, ?_⟩
  rw [texts_append]
  dsimp only
  by_cases fits : (texts (texts 0 w).1 more).2.length ≤ s.room
  · refine .inl ⟨?_, state fits⟩
    rw [text, List.take_of_length_le fits, whole]
  · refine .inr ⟨?_, flag (Nat.not_le.mp fits), ?_⟩
    · have long : t.len = s.len + s.room := by
        rw [← @text_length t, text, List.length_append, text_length, List.length_take_of_le (by omega)]
      have := @room_eq s
      have := @room_eq t
      omega
    · rw [text, whole]
      exact List.prefix_append_right_inj _ |>.mpr (List.take_prefix _ _)

/-- A full buffer stays as it is. -/
theorem inv_of_full {t : Capture} {more : List UInt8} (size : t.buf.length = s.buf.length) (ended : t.Terminated)
    (full : s.room = 0) (pre : s.text <+: (texts 0 w).2) (text : t.text = s.text) (flag : t.capOver = true) :
    Inv (w ++ more) t := by
  have same : t.len = s.len := by rw [← @text_length t, text, text_length]
  refine ⟨ended, .inr ⟨?_, flag, ?_⟩⟩
  · unfold room at full ⊢
    rw [size, same, full]
  · rw [text, texts_append]
    exact pre.trans (List.prefix_append _ _)

/-- A line of which the part that fits is all text fills the room where it is too long. -/
theorem take_line {r : Nat} (fits : (texts 0 (line.take r)).2 = (texts 0 line).2 ∨ 0x1B ∉ line.take r) :
    ((texts 0 (line.take r)).2 ++ [0x0A]).take r = ((texts 0 line).2 ++ [0x0A]).take r := by
  rcases fits with same | plain
  · rw [same]
  by_cases short : line.length ≤ r
  · rw [List.take_of_length_le short]
  have long : (line.take r).length = r := List.length_take_of_le (by omega)
  have parts : (texts 0 line).2 = line.take r ++ (texts 0 (line.drop r)).2 := by
    have whole := @texts_append 0 (line.take r) (line.drop r)
    rw [List.take_append_drop, texts_plain plain] at whole
    rw [whole]
  rw [parts, texts_plain plain, List.append_assoc, List.take_append_of_le_length (Nat.le_of_eq long.symm),
    List.take_append_of_le_length (Nat.le_of_eq long.symm)]

theorem run_inv (inv : Inv w s) (call : Output) (faithful : Faithful s call) : Inv (w ++ call.bytes) (call.run s) := by
  obtain ⟨-, inv⟩ := inv
  have pre : s.text <+: (texts 0 w).2 := by
    rcases inv with ⟨whole, -⟩ | ⟨-, -, pre⟩
    · rw [whole]
    · exact pre
  cases call with
  | write data =>
    obtain ⟨size, text, flag, state⟩ := @write_spec s data
    rcases inv with ⟨whole, open_⟩ | ⟨full, set_, -⟩
    · rw [open_] at text flag state
      refine inv_of_take size write_appended.2 whole text (fun long => ?_) state
      rw [Output.bytes] at long
      apply flag.trans
      rw [decide_eq_true long, Bool.or_true]
    · refine inv_of_full size write_appended.2 full pre ?_ ?_
      · apply text.trans
        rw [full, List.take_zero, List.append_nil]
      · apply flag.trans
        rw [set_, Bool.true_or]
  | blank =>
    obtain ⟨size, esc, text, flag⟩ := @newline_spec s
    by_cases full : s.room = 0
    · refine inv_of_full size newline_appended.2 full pre ?_ ?_
      · apply text.trans
        rw [full, List.take_zero, List.append_nil]
      · apply flag.trans
        rw [decide_eq_true full, Bool.or_true]
    · obtain ⟨whole, open_⟩ := inv.resolve_right fun both => full both.1
      have closed : (texts 0 w).1 = 0 := by rw [← open_]; exact faithful.resolve_left full
      refine inv_of_take size newline_appended.2 whole ?_ ?_ ?_
      · rw [closed]
        exact text
      · rw [closed, Output.bytes, texts_newline]
        intro long
        exact absurd (Nat.lt_one_iff.mp long) full
      · rw [closed, Output.bytes, texts_newline]
        exact fun _ => esc.trans (faithful.resolve_left full)
  | multi line =>
    obtain ⟨size, esc, text, flag, ended⟩ := @multi_spec s line
    by_cases full : s.room = 0
    · refine inv_of_full size ended full pre ?_ ?_
      · apply text.trans
        rw [full, List.take_zero, List.append_nil]
      · apply flag.trans
        rw [full, decide_eq_true (Nat.zero_le _), Bool.or_true]
    · obtain ⟨whole, open_⟩ := inv.resolve_right fun both => full both.1
      obtain ⟨none_, closes, fits⟩ := faithful.resolve_left full
      have closed : (texts 0 w).1 = 0 := by rw [← open_]; exact none_
      have line_ : texts 0 (line ++ [0x0A]) = (0, (texts 0 line).2 ++ [0x0A]) := by
        rw [texts_append, closes, texts_newline]
      have shown : (s.multi line).text = s.text ++ ((texts 0 line).2 ++ [0x0A]).take s.room := by
        rw [text, take_line fits]
      refine inv_of_take size ended whole ?_ ?_ ?_
      · rw [closed]
        apply shown.trans
        rw [Output.bytes, line_]
      · rw [closed, Output.bytes, line_]
        intro long
        apply flag.trans
        by_cases short : s.room < line.length
        · rw [decide_eq_true short, Bool.or_true, Bool.true_or]
        · rw [List.take_of_length_le (Nat.not_lt.mp short)]
          rw [List.length_append, List.length_singleton] at long
          rw [decide_eq_true (Nat.le_of_lt_succ long), Bool.or_true]
      · rw [closed, Output.bytes, line_]
        exact fun _ => esc.trans none_

/-- Every call is faithful where it is made. -/
def AllFaithful : Capture → List Output → Prop
  | _, [] => True
  | s, call :: rest => Faithful s call ∧ AllFaithful (call.run s) rest

theorem foldl_inv (inv : Inv w s) (calls : List Output) (faithful : AllFaithful s calls) :
    Inv (w ++ calls.flatMap Output.bytes) (calls.foldl Output.run s) := by
  induction calls generalizing w s with
  | nil =>
    rw [List.flatMap_nil, List.append_nil]
    exact inv
  | cons call calls ih =>
    rw [List.flatMap_cons, ← List.append_assoc, List.foldl_cons]
    exact ih (run_inv inv call faithful.1) faithful.2

/-- A capture is a faithful prefix of the output without its escapes, in a run whose calls are faithful. -/
theorem captured (buf : List UInt8) (some_ : 0 < buf.length) (calls : List Output)
    (faithful : AllFaithful (begin buf some_) calls) :
    (calls.foldl Output.run (begin buf some_)).Terminated ∧
      (calls.foldl Output.run (begin buf some_)).text <+: (texts 0 (calls.flatMap Output.bytes)).2 ∧
      ((calls.foldl Output.run (begin buf some_)).capOver = false →
        (calls.foldl Output.run (begin buf some_)).text = (texts 0 (calls.flatMap Output.bytes)).2) := by
  obtain ⟨ended, inv⟩ := foldl_inv (@begin_inv buf some_) calls faithful
  rw [List.nil_append] at inv
  refine ⟨ended, ?_, fun clear => ?_⟩
  · rcases inv with ⟨whole, -⟩ | ⟨-, -, pre⟩
    · rw [whole]
    · exact pre
  · rcases inv with ⟨whole, -⟩ | ⟨-, set_, -⟩
    · exact whole
    · rw [clear] at set_
      cases set_

/-- A red line, as it is printed. -/
def redHello : List UInt8 := [0x1B, 0x5B, 0x33, 0x31, 0x6D, 0x48, 0x65, 0x6C, 0x6C, 0x6F]

/-- In twelve bytes it fits, and the blank line behind it too. -/
theorem captured_hello :
    ([Output.multi redHello, .blank].foldl Output.run (begin (List.replicate 12 0) (by decide))).Terminated ∧
      ([Output.multi redHello, .blank].foldl Output.run (begin (List.replicate 12 0) (by decide))).text <+:
        (texts 0 ([Output.multi redHello, .blank].flatMap Output.bytes)).2 ∧
      (([Output.multi redHello, .blank].foldl Output.run (begin (List.replicate 12 0) (by decide))).capOver = false →
        ([Output.multi redHello, .blank].foldl Output.run (begin (List.replicate 12 0) (by decide))).text =
          (texts 0 ([Output.multi redHello, .blank].flatMap Output.bytes)).2) :=
  captured (List.replicate 12 0) (by decide) [.multi redHello, .blank]
    ⟨.inr ⟨rfl, by decide, .inl (by decide)⟩, .inr (by decide), trivial⟩

/-- In six bytes the raw line is cut behind its colour, and a newline is all that is captured. -/
theorem multi_not_prefix :
    ¬([Output.multi redHello].foldl Output.run (begin (List.replicate 6 0) (by decide))).text <+:
      (texts 0 ([Output.multi redHello].flatMap Output.bytes)).2 := by
  decide

end Capture

end RPCortex.Pipeline
