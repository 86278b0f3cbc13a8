import RPCortex.Pipeline.Capture

/-! Pipelines that keep apart keep to themselves. -/

namespace RPCortex.Pipeline

open Lib

variable {s s' : State} {k : Nat} {f : Frame}

/-! ### Text in buffers -/

/-- The buffer is there and begins with the bytes. -/
def Text (heap : Nat → Option Cells) (b : Nat) (w : List UInt8) : Prop :=
  ∃ cells, heap b = some cells ∧ ∀ i < w.length, cells i = w[i]?

theorem Text.congr {heap heap' : Nat → Option Cells} {b : Nat} {w : List UInt8} (h : Text heap b w)
    (same : heap' b = heap b) : Text heap' b w := by
  obtain ⟨cells, here, text⟩ := h
  exact ⟨cells, same.trans here, text⟩

theorem heap_store (s : State) (b i : Nat) (c : UInt8) (b' : Nat) (ne : b' ≠ b) :
    (s.store b i c).heap b' = s.heap b' := upd_ne ne

theorem Text.store {b i : Nat} {w : List UInt8} (h : Text s.heap b w) (behind : w.length ≤ i) (c : UInt8) :
    Text (s.store b i c).heap b w := by
  obtain ⟨cells, here, text⟩ := h
  refine ⟨upd cells i (some c), ?_, fun j lt => ?_⟩
  · show upd s.heap b ((s.heap b).map _) b = _
    rw [upd_same, here]
    rfl
  · rw [upd_ne (by omega)]
    exact text j lt

theorem Text.push {b : Nat} {w : List UInt8} (h : Text s.heap b w) (c : UInt8) :
    Text (s.store b w.length c).heap b (w ++ [c]) := by
  obtain ⟨cells, here, text⟩ := h
  refine ⟨upd cells w.length (some c), ?_, fun j lt => ?_⟩
  · show upd s.heap b ((s.heap b).map _) b = _
    rw [upd_same, here]
    rfl
  · rw [List.length_append, List.length_singleton] at lt
    by_cases last : j = w.length
    · rw [last, upd_same, List.getElem?_append_right le_rfl, Nat.sub_self]
      rfl
    · rw [upd_ne last, text j (by omega), List.getElem?_append_left (by omega)]

theorem Text.readBuf {b : Nat} {w : List UInt8} (h : Text s.heap b w) : s.readBuf b w.length = w.map some := by
  obtain ⟨cells, here, text⟩ := h
  refine List.ext_getElem (by simp [State.readBuf]) fun i lt lt' => ?_
  rw [List.length_map] at lt'
  simp only [State.readBuf, List.getElem_map, List.getElem_range, here, Option.bind_some, text i lt']
  exact List.getElem?_eq_getElem lt'

/-! ### The capture -/

/-- What the capture holds of the text `w`. -/
structure Held (s : State) (b : Nat) (w : List UInt8) (esc : Nat) : Prop where
  size : s.capSize = pipeBuf
  len : s.capLen = (w.take (pipeBuf - 1)).length
  text : Text s.heap b (w.take (pipeBuf - 1))
  escapes : w.length < pipeBuf - 1 → s.capEsc = esc

/-- A full capture takes nothing more. -/
theorem capLoop_full {b : Nat} (bytes : List UInt8) (full : s.capSize ≤ s.capLen + 1) :
    ∃ esc cut, State.capLoop b bytes s = { s with capEsc := esc, capOver := cut } := by
  induction bytes generalizing s with
  | nil => exact ⟨s.capEsc, s.capOver, rfl⟩
  | cons c rest ih =>
    unfold State.capLoop
    simp only
    split
    · obtain ⟨esc, cut, eq⟩ := ih (s := { s with capEsc := (strip s.capEsc c).1 }) full
      exact ⟨esc, cut, eq⟩
    · exact ⟨s.capEsc, true, if_pos full⟩

theorem take_append_full {w v : List UInt8} {n : Nat} (full : n ≤ w.length) : (w ++ v).take n = w.take n :=
  List.take_append_of_le_length full

/-- What a loop changes: the bytes of its buffer and where the capture is. -/
structure Looped (s s' : State) (b : Nat) : Prop where
  same : s' = { s with heap := s'.heap, capLen := s'.capLen, capEsc := s'.capEsc, capOver := s'.capOver }
  heap : ∀ b' ≠ b, s'.heap b' = s.heap b'
  live : (s'.heap b).isSome = (s.heap b).isSome

theorem Looped.trans {s₁ s₂ s₃ : State} {b : Nat} (h : Looped s₁ s₂ b) (h' : Looped s₂ s₃ b) :
    Looped s₁ s₃ b := by
  refine ⟨?_, fun b' ne => (h'.heap b' ne).trans (h.heap b' ne), h'.live.trans h.live⟩
  have first := h.same
  rw [h'.same, first]

theorem looped_store (s : State) (b i : Nat) (c : UInt8) (len : Nat) :
    Looped s { s.store b i c with capLen := len } b where
  same := rfl
  heap b' ne := heap_store s b i c b' ne
  live := by
    show (upd s.heap b ((s.heap b).map _) b).isSome = _
    rw [upd_same, Option.isSome_map]

/-- The loop adds the text of what is written, up to the size. -/
theorem capLoop_held {b : Nat} {w : List UInt8} {esc : Nat} (bytes : List UInt8) (h : Held s b w esc) :
    Looped s (State.capLoop b bytes s) b ∧
      Held (State.capLoop b bytes s) b (w ++ (texts esc bytes).2) (texts esc bytes).1 := by
  induction bytes generalizing s w esc with
  | nil =>
    refine ⟨⟨rfl, fun _ _ => rfl, rfl⟩, ?_⟩
    show Held s b (w ++ []) esc
    rw [List.append_nil]
    exact h
  | cons c rest ih =>
    by_cases full : pipeBuf - 1 ≤ w.length
    · obtain ⟨esc', cut, eq⟩ := capLoop_full (b := b) (c :: rest) (s := s) (by
        rw [h.size, h.len, List.length_take, Nat.min_eq_left full]
        decide)
      rw [eq]
      refine ⟨⟨rfl, fun _ _ => rfl, rfl⟩, h.size, ?_, ?_, fun lt => ?_⟩
      · rw [take_append_full full]
        exact h.len
      · rw [take_append_full full]
        exact h.text
      · rw [List.length_append] at lt
        omega
    have room : w.length < pipeBuf - 1 := Nat.lt_of_not_le full
    have escapes := h.escapes room
    unfold State.capLoop texts
    rw [escapes]
    simp only
    cases text : (strip esc c).2 with
    | none =>
      have next : Held { s with capEsc := (strip esc c).1 } b w (strip esc c).1 :=
        ⟨h.size, h.len, h.text, fun _ => rfl⟩
      obtain ⟨looped, held⟩ := ih next
      exact ⟨⟨looped.same, looped.heap, looped.live⟩, held⟩
    | some c' =>
      have len : s.capLen = w.length := by rw [h.len, List.take_of_length_le (Nat.le_of_lt room)]
      have kept := List.take_of_length_le (Nat.le_of_lt room)
      have fits : ¬s.capSize ≤ s.capLen + 1 := by
        rw [h.size, len]
        simp only [pipeBuf] at *
        omega
      have same : (strip esc c).1 = esc := by
        unfold strip at text ⊢
        split at text
        · cases text
        · split at text
          · cases text
          · split at text
            · cases text
            · rename_i one two three
              rw [if_neg one, if_neg two, if_neg three]
      simp only
      rw [if_neg fits, same]
      have text := h.text
      rw [kept] at text
      have pushed := text.push c'
      have next : Held { s.store b s.capLen c' with capLen := s.capLen + 1 } b (w ++ [c']) esc := by
        have short : (w ++ [c']).take (pipeBuf - 1) = w ++ [c'] :=
          List.take_of_length_le (by rw [List.length_append]; exact room)
        refine ⟨h.size, ?_, ?_, fun _ => escapes⟩
        · rw [short, List.length_append, ← len]
          rfl
        · rw [short, len]
          exact pushed
      obtain ⟨looped, held⟩ := ih next
      refine ⟨(looped_store s b s.capLen c' (s.capLen + 1)).trans looped, ?_⟩
      show Held _ b (w ++ ([c'] ++ (texts esc rest).2)) _
      rw [← List.append_assoc]
      exact held

theorem capAppend_held {b : Nat} {w : List UInt8} {esc : Nat} (bytes : List UInt8) (h : Held s b w esc) :
    Looped s (s.capAppend b bytes) b ∧
      Held (s.capAppend b bytes) b (w ++ (texts esc bytes).2) (texts esc bytes).1 := by
  obtain ⟨looped, held⟩ := capLoop_held bytes h
  refine ⟨looped.trans (looped_store _ b _ 0 _), held.size, held.len, ?_, held.escapes⟩
  exact held.text.store (Nat.le_of_eq held.len.symm) 0

/-! ### Lines -/

theorem Text.storeAll {b : Nat} {w : List UInt8} (h : Text s.heap b w) (bytes : List UInt8) :
    Text (State.storeAll b w.length bytes s).heap b (w ++ bytes) := by
  induction bytes generalizing s w with
  | nil => rwa [List.append_nil]
  | cons c rest ih =>
    have next := ih (h.push c)
    rw [List.append_assoc, List.length_append] at next
    exact next

theorem capLen_storeAll (b i : Nat) (bytes : List UInt8) : (State.storeAll b i bytes s).capLen = s.capLen := by
  induction bytes generalizing s i with
  | nil => rfl
  | cons c rest ih => exact ih (i + 1)

theorem looped_storeAll (b i : Nat) (bytes : List UInt8) : Looped s (State.storeAll b i bytes s) b := by
  induction bytes generalizing s i with
  | nil => exact ⟨rfl, fun _ _ => rfl, rfl⟩
  | cons c rest ih => exact (looped_store s b i c s.capLen).trans (ih (i + 1))

theorem Text.take {heap : Nat → Option Cells} {b : Nat} {w v : List UInt8} (h : Text heap b (w ++ v)) :
    Text heap b w := by
  obtain ⟨cells, here, text⟩ := h
  refine ⟨cells, here, fun i lt => ?_⟩
  rw [text i (by rw [List.length_append]; omega), List.getElem?_append_left lt]

/-- A line that is read back over the text is read as it was formatted: what is stored stays in front of what is read. -/
theorem capBack_eq {b p : Nat} (bytes : List UInt8) (front : s.capLen ≤ p)
    (there : ∀ j < bytes.length, ((s.heap b).bind fun cells => cells (p + j)) = bytes[j]?) :
    State.capBack b bytes.length p s = State.capLoop b bytes s := by
  induction bytes generalizing s p with
  | nil => rfl
  | cons c rest ih =>
    have here : ((s.heap b).bind fun cells => cells p).getD 0 = c := by
      rw [show p = p + 0 from rfl, there 0 (Nat.succ_pos _)]
      rfl
    have later (j : Nat) (lt : j < rest.length) :
        ((s.heap b).bind fun cells => cells (p + 1 + j)) = rest[j]? := by
      rw [show p + 1 + j = p + (j + 1) by omega, there (j + 1) (Nat.succ_lt_succ lt), List.getElem?_cons_succ]
    rw [List.length_cons, State.capBack, State.capLoop, here]
    simp only
    cases (strip s.capEsc c).2 with
    | none => exact ih (Nat.le_succ_of_le front) later
    | some c' =>
      simp only
      split
      · rfl
      · refine ih (Nat.succ_le_succ front) fun j lt => ?_
        rw [← later j lt]
        show (upd s.heap b ((s.heap b).map _) b).bind _ = _
        rw [upd_same]
        cases s.heap b with
        | none => rfl
        | some cells => exact upd_ne (by omega)

theorem Held.reset {b : Nat} {w : List UInt8} {esc : Nat} (h : Held s b w esc) :
    Held { s with capEsc := 0 } b w 0 := ⟨h.size, h.len, h.text, fun _ => rfl⟩

/-- What the capture holds is the part of the text that has room. -/
theorem Held.of_take {b : Nat} {w w' : List UInt8} {esc esc' : Nat} (h : Held s b w esc)
    (same : w'.take (pipeBuf - 1) = w.take (pipeBuf - 1)) (open_ : w'.length < pipeBuf - 1 → s.capEsc = esc') :
    Held s b w' esc' :=
  ⟨h.size, by rw [same]; exact h.len, by rw [same]; exact h.text, open_⟩

/-- A newline of a line or of its own. -/
theorem capNewline_held {b : Nat} {w : List UInt8} {esc : Nat} (h : Held s b w esc) :
    Looped s (s.capNewline b) b ∧ (s.capNewline b).capEsc = s.capEsc ∧
      Held { s.capNewline b with capEsc := 0 } b (w ++ [0x0A]) 0 := by
  obtain ⟨looped, held⟩ := capAppend_held [0x0A] h.reset
  refine ⟨⟨?_, looped.heap, looped.live⟩, rfl, held.size, held.len, held.text, fun _ => rfl⟩
  have same := looped.same
  unfold State.capNewline
  rw [same]

/-- A line adds the text of what is formatted of it. -/
theorem capLine_held {b : Nat} {w : List UInt8} {esc : Nat} (line : List UInt8) (h : Held s b w esc) :
    Looped s (s.capLine b line) b ∧ (s.capLine b line).capEsc = s.capEsc ∧
      Held { s.capLine b line with capEsc := 0 } b
        (w ++ (texts 0 (line.take (s.capSize - 1 - s.capLen))).2) 0 := by
  have stored := h.text.storeAll (line.take (s.capSize - 1 - s.capLen) ++ [0])
  have first := looped_storeAll (s := s) b s.capLen (line.take (s.capSize - 1 - s.capLen) ++ [0])
  have len := capLen_storeAll (s := s) b s.capLen (line.take (s.capSize - 1 - s.capLen) ++ [0])
  rw [← h.len] at stored
  have count : min line.length (s.capSize - 1 - s.capLen) = (line.take (s.capSize - 1 - s.capLen)).length := by
    rw [List.length_take, Nat.min_comm]
  unfold State.capLine
  simp only
  rw [count]
  generalize decide (s.capSize - 1 - s.capLen < line.length) = longer
  generalize line.take (s.capSize - 1 - s.capLen) = part at stored first len ⊢
  generalize State.storeAll b s.capLen (part ++ [0]) s = u at stored first len ⊢
  have formatted : Held { u with capOver := s.capOver || longer, capEsc := 0 } b w 0 := by
    refine ⟨?_, len.trans h.len, stored.take, fun _ => rfl⟩
    show u.capSize = pipeBuf
    rw [first.same]
    exact h.size
  -- the part that is read back stands behind the text
  have back := capBack_eq (s := { u with capOver := s.capOver || longer, capEsc := 0 }) (b := b) (p := s.capLen) part
    (Nat.le_of_eq len) fun j lt => by
      obtain ⟨cells, here, text⟩ := stored
      have place := text (s.capLen + j) (by rw [List.length_append, List.length_append, ← h.len]; omega)
      rw [List.getElem?_append_right (by rw [← h.len]; omega), ← h.len, Nat.add_sub_cancel_left,
        List.getElem?_append_left lt] at place
      show ((u.heap b).bind _) = _
      rw [here]
      exact place
  rw [back]
  obtain ⟨looped, held⟩ := capLoop_held part formatted
  generalize State.capLoop b part { u with capOver := s.capOver || longer, capEsc := 0 } = v at looped held ⊢
  have ended := (first.trans ⟨?_, looped.heap, looped.live⟩).trans (looped_store v b v.capLen 0 v.capLen)
  · refine ⟨⟨?_, ended.heap, ended.live⟩, trivial, held.size, held.len, ?_, fun _ => rfl⟩
    · exact congrArg (fun x : State => { x with capEsc := s.capEsc }) ended.same
    · exact held.text.store (Nat.le_of_eq held.len.symm) 0
  · rw [looped.same]

/-- What the capture takes of a line is the line. -/
theorem capMulti_held {b : Nat} {w : List UInt8} {esc : Nat} (line : List UInt8) (h : Held s b w esc)
    (takes : s.Takes (.multi line)) : Looped s ((s.capLine b line).capNewline b) b ∧
      Held ((s.capLine b line).capNewline b) b (w ++ (texts esc (line ++ [0x0A])).2) (texts esc (line ++ [0x0A])).1 := by
  obtain ⟨looped, esc₁, held⟩ := capLine_held line h
  have read : Held (s.capLine b line) b (w ++ (texts 0 (line.take (s.capSize - 1 - s.capLen))).2) s.capEsc :=
    ⟨held.size, held.len, held.text, fun _ => esc₁⟩
  obtain ⟨looped', esc₂, held'⟩ := capNewline_held read
  refine ⟨looped.trans looped', ?_⟩
  generalize (s.capLine b line).capNewline b = t at looped' esc₂ held' ⊢
  have whole : Held t b (w ++ (texts 0 (line.take (s.capSize - 1 - s.capLen))).2 ++ [0x0A]) s.capEsc :=
    ⟨held'.size, held'.len, held'.text, fun _ => esc₂.trans esc₁⟩
  have room : s.capSize - 1 - s.capLen = pipeBuf - 1 - w.length := by
    rw [h.size, h.len, List.length_take]
    omega
  by_cases full : s.capSize - 1 - s.capLen = 0
  · rw [room] at full
    refine whole.of_take ?_ fun lt => ?_
    · rw [List.append_assoc, take_append_full (by omega), take_append_full (by omega)]
    · rw [List.length_append] at lt
      omega
  · obtain ⟨none_, closes, fits⟩ := takes.resolve_left full
    have open_ : esc = 0 := (h.escapes (by omega)).symm.trans none_
    have line_ : texts 0 (line ++ [0x0A]) = (0, (texts 0 line).2 ++ [0x0A]) := by
      rw [texts_append, closes, Capture.texts_newline]
    rw [open_, line_]
    refine whole.of_take ?_ fun _ => (esc₂.trans esc₁).trans none_
    rw [List.append_assoc, List.take_append, @List.take_append _ w, ← room]
    congr 1
    exact (Capture.take_line fits).symm

theorem capBlank_held {b : Nat} {w : List UInt8} {esc : Nat} (h : Held s b w esc) (takes : s.Takes .blank) :
    Looped s (s.capNewline b) b ∧ Held (s.capNewline b) b (w ++ (texts esc [0x0A]).2) (texts esc [0x0A]).1 := by
  obtain ⟨looped, same, held⟩ := capNewline_held h
  refine ⟨looped, ?_⟩
  have whole : Held (s.capNewline b) b (w ++ [0x0A]) s.capEsc :=
    ⟨held.size, held.len, held.text, fun _ => same⟩
  by_cases full : s.capSize - 1 - s.capLen = 0
  · have long : pipeBuf - 1 ≤ w.length := by
      rw [h.size, h.len, List.length_take] at full
      omega
    refine whole.of_take ?_ fun lt => ?_
    · rw [take_append_full long, take_append_full long]
    · rw [List.length_append] at lt
      omega
  · have none_ := takes.resolve_left full
    have short : w.length < pipeBuf - 1 := by
      rw [h.size, h.len, List.length_take] at full
      omega
    have open_ : esc = 0 := (h.escapes short).symm.trans none_
    rw [open_, Capture.texts_newline]
    exact whole.of_take rfl fun _ => same.trans none_

end RPCortex.Pipeline

/-! The invariant of runs in which pipelines keep apart. -/

namespace RPCortex.Pipeline

open Lib

variable {s s' : State} {k : Nat} {f : Frame}

/-- The buffers of a call. -/
def Frame.bufs (f : Frame) : List Nat := f.bufA.toList ++ f.bufB.toList

/-- The capture is the call's. -/
def Caught (s : State) (f : Frame) : Prop :=
  ∃ b, f.bufA = some b ∧ s.cap = some b ∧ s.capOwner = f.task ∧ Held s b f.wrote f.esc

/-- The piped input is what the call was given. -/
def Given (s : State) (f : Frame) (g : List UInt8) : Prop :=
  ∃ b, f.bufB = some b ∧ s.stdin = some b ∧ s.stdinLen = g.length ∧ Text s.heap b g

/-- What the call has captured, when the capture is over. -/
def Filled (s : State) (f : Frame) (n : Nat) : Prop :=
  ∃ b, f.bufA = some b ∧ n = (f.wrote.take (pipeBuf - 1)).length ∧ Text s.heap b (f.wrote.take (pipeBuf - 1))

/-- What a call needs at each place: of the capture while its command runs, and of its buffers. -/
def Needs (s : State) (f : Frame) : Pc → Prop
  | .stage | .leave => True
  | .begin => f.bufA.isSome = true ∧ f.capturing = true ∧ f.wrote = [] ∧ f.esc = 0
  | .run => f.capturing = true → Caught s f
  | .stop => f.capturing = true ∧ Caught s f
  | .readLen p => (f.capturing = true → Caught s f) ∧ ∃ g, f.given = some g ∧ f.bufB = some p
  | .readData p n => (f.capturing = true → Caught s f) ∧ ∃ g, f.given = some g ∧ f.bufB = some p ∧ n = g.length
  | .file n | .hand n => Filled s f n
  | .enter | .freeA => f.given = none
  | .freeB => f.given = none ∧ f.bufA = none
  | .done => f.given = none ∧ f.bufs = []

/-- The invariant of one call. -/
structure Own (s : State) (f : Frame) : Prop where
  live : ∀ b ∈ f.bufs, (s.heap b).isSome = true ∧ b < s.next
  split : f.bufs.Nodup
  gave : ∀ g, f.given = some g → Given s f g
  needs : Needs s f f.pc

theorem catching_iff : f.catching = true ↔ f.capturing = true ∧
    (f.pc = .run ∨ f.pc = .stop ∨ (∃ p, f.pc = .readLen p) ∨ ∃ p n, f.pc = .readData p n) := by
  unfold Frame.catching
  rw [Bool.and_eq_true_iff]
  refine and_congr_right fun _ => ?_
  cases f.pc <;> simp

theorem Own.caught (own : Own s f) (catching : f.catching = true) : Caught s f := by
  obtain ⟨capturing, pc⟩ := catching_iff.mp catching
  have needs := own.needs
  rcases pc with pc | pc | ⟨p, pc⟩ | ⟨p, n, pc⟩
  · rw [pc] at needs
    exact needs capturing
  · rw [pc] at needs
    exact needs.2
  · rw [pc] at needs
    exact needs.1 capturing
  · rw [pc] at needs
    exact needs.1 capturing

theorem Own.done (own : Own s f) (pc : f.pc = .done) : f.given = none ∧ f.bufs = [] := by
  have needs := own.needs
  rw [pc] at needs
  exact needs

/-- What a call needs of the others. -/
structure Leaves (s s' : State) (f : Frame) : Prop where
  heap : ∀ b ∈ f.bufs, s'.heap b = s.heap b
  next : s.next ≤ s'.next
  cap : f.catching = true → s'.cap = s.cap ∧ s'.capOwner = s.capOwner ∧ s'.capSize = s.capSize ∧
    s'.capLen = s.capLen ∧ s'.capEsc = s.capEsc
  stdin : f.given ≠ none → s'.stdin = s.stdin ∧ s'.stdinLen = s.stdinLen

theorem mem_bufs {b : Nat} : b ∈ f.bufs ↔ f.bufA = some b ∨ f.bufB = some b := by
  simp [Frame.bufs, Option.mem_toList]

theorem nodup_bufs : f.bufs.Nodup ↔ ∀ b, f.bufA = some b → f.bufB ≠ some b := by
  cases a : f.bufA <;> cases b : f.bufB <;> simp [Frame.bufs, a, b, eq_comm]

theorem mem_bufA {b : Nat} (h : f.bufA = some b) : b ∈ f.bufs := by simp [Frame.bufs, h]

theorem mem_bufB {b : Nat} (h : f.bufB = some b) : b ∈ f.bufs := by simp [Frame.bufs, h]

theorem Held.congr {b : Nat} {w : List UInt8} {esc : Nat} (h : Held s b w esc) (size : s'.capSize = s.capSize)
    (len : s'.capLen = s.capLen) (at_ : s'.capEsc = s.capEsc) (heap : s'.heap b = s.heap b) :
    Held s' b w esc :=
  ⟨size.trans h.size, len.trans h.len, h.text.congr heap, fun lt => at_.trans (h.escapes lt)⟩

theorem Caught.congr (caught : Caught s f) (leaves : Leaves s s' f) (catching : f.catching = true) :
    Caught s' f := by
  obtain ⟨b, bufA, cap, owner, held⟩ := caught
  obtain ⟨cap', owner', size, len, esc⟩ := leaves.cap catching
  exact ⟨b, bufA, cap'.trans cap, owner'.trans owner, held.congr size len esc (leaves.heap b (mem_bufA bufA))⟩

theorem Filled.congr {n : Nat} (filled : Filled s f n) (leaves : Leaves s s' f) : Filled s' f n := by
  obtain ⟨b, bufA, len, text⟩ := filled
  exact ⟨b, bufA, len, text.congr (leaves.heap b (mem_bufA bufA))⟩

theorem Own.congr (own : Own s f) (leaves : Leaves s s' f) : Own s' f where
  live b mem := ⟨by rw [leaves.heap b mem]; exact (own.live b mem).1, (own.live b mem).2.trans_le leaves.next⟩
  split := own.split
  gave g given := by
    obtain ⟨b, bufB, stdin, len, text⟩ := own.gave g given
    obtain ⟨stdin', len'⟩ := leaves.stdin (by rw [given]; exact Option.some_ne_none g)
    exact ⟨b, bufB, stdin'.trans stdin, len'.trans len, text.congr (leaves.heap b (mem_bufB bufB))⟩
  needs := by
    have needs := own.needs
    cases pc : f.pc with
    | stage | leave => trivial
    | begin | enter | freeA | freeB | done =>
      rw [pc] at needs
      exact needs
    | run =>
      rw [pc] at needs
      exact fun capturing => (needs capturing).congr leaves (catching_iff.mpr ⟨capturing, by simp [pc]⟩)
    | stop =>
      rw [pc] at needs
      exact ⟨needs.1, needs.2.congr leaves (catching_iff.mpr ⟨needs.1, by simp [pc]⟩)⟩
    | readLen p | readData p n =>
      rw [pc] at needs
      exact ⟨fun capturing => (needs.1 capturing).congr leaves (catching_iff.mpr ⟨capturing, by simp [pc]⟩), needs.2⟩
    | file n | hand n =>
      rw [pc] at needs
      exact needs.congr leaves

structure Sound (s : State) : Prop where
  own : ∀ k, Own s (s.frames k)
  fresh : ∀ k, s.nextFrame ≤ k → (s.frames k).pc = .done
  apart : ∀ j k, j ≠ k → ∀ b ∈ (s.frames j).bufs, b ∉ (s.frames k).bufs
  shut : s.cap = none → ∀ k, (s.frames k).catching = false
  opened : s.cap ≠ none → ∃ k, (s.frames k).catching = true
  unset : s.stdin ≠ none → ∃ k, (s.frames k).given ≠ none
  member : ∀ t k, k ∈ s.calls t ↔ (s.frames k).pc ≠ .done ∧ (s.frames k).task = t
  nodup : ∀ t, (s.calls t).Nodup
  inner : ∀ t, ∀ k ∈ (s.calls t).tail, (s.frames k).pc = .run
  faithful : s.Faithful

variable (i : Sound s)

include i in
/-- One capture is open at most. -/
theorem Sound.catching_inj {j k : Nat} (h : (s.frames j).catching = true) (h' : (s.frames k).catching = true) :
    j = k := by
  by_contra ne
  obtain ⟨b, bufA, cap, _⟩ := (i.own j).caught h
  obtain ⟨b', bufA', cap', _⟩ := (i.own k).caught h'
  obtain rfl := Option.some.inj (cap.symm.trans cap')
  exact i.apart j k ne b (mem_bufA bufA) (mem_bufA bufA')

include i in
/-- A turn of the call `k`: what it changes of the state, and what it leaves to the others. -/
structure Turn (s s' : State) (k : Nat) : Prop where
  frames : ∀ j ≠ k, s'.frames j = s.frames j
  calls : s'.calls = s.calls
  nextFrame : s'.nextFrame = s.nextFrame
  alive : (s'.frames k).pc ≠ .done ∧ (s'.frames k).task = (s.frames k).task
  leaves : ∀ j ≠ k, Leaves s s' (s.frames j)
  bufs : ∀ b ∈ (s'.frames k).bufs, b ∈ (s.frames k).bufs ∨ s.next ≤ b

include i in
theorem Sound.turn {t : Nat} (mem : k ∈ s.calls t) (turn : Turn s s' k)
    (inner : ∀ t, k ∈ (s.calls t).tail → (s'.frames k).pc = .run)
    (own : Own s' (s'.frames k)) (shut : s'.cap = none → ∀ k, (s'.frames k).catching = false)
    (opened : s'.cap ≠ none → ∃ k, (s'.frames k).catching = true)
    (unset : s'.stdin ≠ none → ∃ k, (s'.frames k).given ≠ none) (faithful : s'.Faithful) : Sound s' := by
  have here := (i.member t k).mp mem
  refine ⟨fun j => ?_, fun j new => ?_, fun j l ne b memj meml => ?_, shut, opened, unset, fun t' j => ?_,
    fun t' => by rw [turn.calls]; exact i.nodup t', fun t' j memj => ?_, faithful⟩
  · by_cases is : j = k
    · rw [is]
      exact own
    · rw [turn.frames j is]
      exact (i.own j).congr (turn.leaves j is)
  · rw [turn.nextFrame] at new
    have is : j ≠ k := fun same => here.1 (by rw [← same]; exact i.fresh j new)
    rw [turn.frames j is]
    exact i.fresh j new
  · by_cases isj : j = k
    · have isl : l ≠ k := fun same => ne (isj.trans same.symm)
      rw [isj] at memj
      rw [turn.frames l isl] at meml
      rcases turn.bufs b memj with old | new
      · exact i.apart l k isl b meml old
      · exact absurd ((i.own l).live b meml).2 (Nat.not_lt.mpr new)
    · rw [turn.frames j isj] at memj
      by_cases isl : l = k
      · rw [isl] at meml
        rcases turn.bufs b meml with old | new
        · exact i.apart j k isj b memj old
        · exact absurd ((i.own j).live b memj).2 (Nat.not_lt.mpr new)
      · rw [turn.frames l isl] at meml
        exact i.apart j l ne b memj meml
  · rw [turn.calls, i.member t' j]
    by_cases is : j = k
    · subst is
      rw [turn.alive.2]
      exact ⟨fun h => ⟨turn.alive.1, h.2⟩, fun h => ⟨here.1, h.2⟩⟩
    · rw [turn.frames j is]
  · rw [turn.calls] at memj
    by_cases is : j = k
    · subst is
      exact inner t' memj
    · rw [turn.frames j is]
      exact i.inner t' j memj

include i in
/-- The first call of a task is not in a call of its task or another. -/
theorem Sound.top_outside {t t' : Nat} (top : (s.calls t).head? = some k) : k ∉ (s.calls t').tail := by
  intro mem
  have here := ((i.member t k).mp (List.mem_of_mem_head? top)).2
  have there := ((i.member t' k).mp (List.mem_of_mem_tail mem)).2
  obtain rfl := here.symm.trans there
  have nodup := i.nodup t
  cases calls : s.calls t with
  | nil => rw [calls] at mem; cases mem
  | cons first rest =>
    rw [calls] at top mem nodup
    obtain rfl := Option.some.inj top
    exact (List.nodup_cons.mp nodup).1 mem

end RPCortex.Pipeline
