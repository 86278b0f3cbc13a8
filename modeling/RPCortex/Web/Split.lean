import RPCortex.Web.Parser

/-! How the bytes are split does not matter.  With callbacks that accept everything, feeding a chunk
is feeding its bytes one by one: the turns that take many bytes at once add up. -/

namespace RPCortex.Http

open Lib

/-- What callbacks that accept everything saw: the body bytes, and the header lines in order. -/
structure Log where
  body : List UInt8
  headers : List (List UInt8)
  deriving DecidableEq

/-- Callbacks that accept and note everything. -/
def recording : Callbacks Log where
  sink := some fun _ d w => (0, { w with body := w.body ++ d })
  header := some fun line w => { w with headers := w.headers ++ [line] }

/-- The parser and the log. -/
abbrev Recorded := HttpParser × Log

namespace HttpParser

/-- One chunk. -/
def feed (s : Recorded) (data : List UInt8) : Recorded :=
  let (p, w, _) := httpParserFeed recording s.1 s.2 data
  (p, w)

/-- A response as it arrives in chunks. -/
def feedAll (headOnly : Bool) (chunks : List (List UInt8)) : Recorded :=
  chunks.foldl feed (init headOnly, ⟨[], []⟩)

/-- One byte. -/
def feedByte (s : Recorded) (c : UInt8) : Recorded :=
  if s.1.running then
    let (p, w, _) := feedOnce recording s.1 s.2 [c]
    (p, w)
  else s

/-- Where bytes are counted, some are still to come. -/
structure Expecting (p : HttpParser) : Prop where
  bodyLen : p.state = .bodyLen → p.bodySeen < p.contentLength
  chunkData : p.state = .chunkData → 0 < p.chunkLeft
  early : p.state = .status ∨ p.state = .headers → p.bodySeen = 0

variable {p : HttpParser} {w : Log} {s : Recorded} {d data : List UInt8} {c : UInt8}

theorem emit_recording (d : List UInt8) (p : HttpParser) (w : Log) :
    emit recording d p w =
      (true, { p with bodySeen := p.bodySeen + d.length }, { w with body := w.body ++ d }) := by
  unfold emit
  split
  · rename_i h
    subst h
    simp
  · rfl

theorem expecting_init (headOnly : Bool) : Expecting (init headOnly) := by
  refine ⟨?_, ?_, ?_⟩ <;> intro h
  · cases h
  · cases h
  · rfl

/-! ### Turns that take many bytes -/

theorem feedByte_bodyLen (hs : p.state = .bodyLen) (left : p.bodySeen < p.contentLength) :
    feedByte (p, w) c =
      (if p.contentLength ≤ p.bodySeen + 1 then
          { p with bodySeen := p.bodySeen + 1, state := .done }
        else { p with bodySeen := p.bodySeen + 1 },
        { w with body := w.body ++ [c] }) := by
  have run : p.running = true := by simp [running, done, failed, hs]
  have one : takes (p.contentLength - p.bodySeen) 1 = 1 := by
    unfold takes
    split <;> omega
  simp only [feedByte, if_pos run, feedOnce, hs, List.length_singleton, one, emit_recording]
  rfl

/-- The bytes of a body of known length, up to its end. -/
theorem foldl_bodyLen (hs : p.state = .bodyLen) (some : d ≠ [])
    (fits : p.bodySeen + d.length ≤ p.contentLength) :
    d.foldl feedByte (p, w) =
      (if p.contentLength ≤ p.bodySeen + d.length then
          { p with bodySeen := p.bodySeen + d.length, state := .done }
        else { p with bodySeen := p.bodySeen + d.length },
        { w with body := w.body ++ d }) := by
  induction d generalizing p w with
  | nil => exact absurd rfl some
  | cons c d ih =>
    rw [List.length_cons] at fits ⊢
    rw [List.foldl_cons, feedByte_bodyLen hs (by omega)]
    by_cases last : d = []
    · subst last
      simp
    · have more : 0 < d.length := List.length_pos_iff.mpr last
      rw [if_neg (by omega), ih (p := { p with bodySeen := p.bodySeen + 1 }) hs last
        (by simp only; omega)]
      have sum : p.bodySeen + 1 + (d.length : Int) = p.bodySeen + ((d.length + 1 : Nat) : Int) := by
        omega
      simp only [sum, List.append_assoc, List.singleton_append]

theorem feedByte_bodyEof (hs : p.state = .bodyEof) :
    feedByte (p, w) c =
      ({ p with bodySeen := p.bodySeen + 1 }, { w with body := w.body ++ [c] }) := by
  have run : p.running = true := by simp [running, done, failed, hs]
  simp only [feedByte, if_pos run, feedOnce, hs, emit_recording]
  rfl

/-- The bytes of a body that the end of the connection ends. -/
theorem foldl_bodyEof (hs : p.state = .bodyEof) :
    d.foldl feedByte (p, w) =
      ({ p with bodySeen := p.bodySeen + d.length }, { w with body := w.body ++ d }) := by
  induction d generalizing p w with
  | nil => simp
  | cons c d ih =>
    rw [List.foldl_cons, feedByte_bodyEof hs, ih (p := { p with bodySeen := p.bodySeen + 1 }) hs,
      List.length_cons]
    have sum : p.bodySeen + 1 + (d.length : Int) = p.bodySeen + ((d.length + 1 : Nat) : Int) := by
      omega
    simp only [sum, List.append_assoc, List.singleton_append]

theorem feedByte_chunkData (hs : p.state = .chunkData) (left : 0 < p.chunkLeft) :
    feedByte (p, w) c =
      (if p.chunkLeft = 1 then
          { p with bodySeen := p.bodySeen + 1, chunkLeft := 0, state := .chunkCrlf, line := [] }
        else { p with bodySeen := p.bodySeen + 1, chunkLeft := p.chunkLeft - 1 },
        { w with body := w.body ++ [c] }) := by
  have run : p.running = true := by simp [running, done, failed, hs]
  have one : takes p.chunkLeft 1 = 1 := by
    unfold takes
    split <;> omega
  simp only [feedByte, if_pos run, feedOnce, hs, List.length_singleton, one, emit_recording]
  by_cases last : p.chunkLeft = 1
  · rw [if_pos last]
    simp [last, lineReset]
  · rw [if_neg last]
    have : ¬p.chunkLeft - 1 = 0 := by omega
    simp [this]

/-- The bytes of a chunk, up to its end. -/
theorem foldl_chunkData (hs : p.state = .chunkData) (some : d ≠ [])
    (fits : (d.length : Int) ≤ p.chunkLeft) :
    d.foldl feedByte (p, w) =
      (if p.chunkLeft = d.length then
          { p with
            bodySeen := p.bodySeen + d.length, chunkLeft := 0, state := .chunkCrlf, line := [] }
        else
          { p with bodySeen := p.bodySeen + d.length, chunkLeft := p.chunkLeft - d.length },
        { w with body := w.body ++ d }) := by
  induction d generalizing p w with
  | nil => exact absurd rfl some
  | cons c d ih =>
    rw [List.length_cons] at fits ⊢
    rw [List.foldl_cons, feedByte_chunkData hs (by omega)]
    by_cases last : d = []
    · subst last
      simp
    · have more : 0 < d.length := List.length_pos_iff.mpr last
      rw [if_neg (by omega), ih (p := { p with
        bodySeen := p.bodySeen + 1, chunkLeft := p.chunkLeft - 1 }) hs last (by simp only; omega)]
      have sum : p.bodySeen + 1 + (d.length : Int) = p.bodySeen + ((d.length + 1 : Nat) : Int) := by
        omega
      have rest : p.chunkLeft - 1 - (d.length : Int) =
          p.chunkLeft - ((d.length + 1 : Nat) : Int) := by
        omega
      have ends : p.chunkLeft - 1 = (d.length : Int) ↔
          p.chunkLeft = ((d.length + 1 : Nat) : Int) := by
        omega
      simp only [sum, rest, ends, List.append_assoc, List.singleton_append]

/-! ### A turn is its bytes -/

/-- One turn takes bytes of the data, one at least, and does what these bytes do one by one. -/
theorem feedOnce_eq (expecting : Expecting p) (run : p.running = true) (some : data ≠ []) :
    ∃ taken rest t, feedOnce recording p w data = (t.1, t.2, rest) ∧ data = taken ++ rest ∧
      taken ≠ [] ∧ taken.foldl feedByte (p, w) = t := by
  by_cases len : p.state = .bodyLen
  · have left := expecting.bodyLen len
    generalize hn : takes (p.contentLength - p.bodySeen) data.length = n
    have pos : 0 < data.length := List.length_pos_iff.mpr some
    have bounds : 0 < n ∧ n ≤ data.length ∧ p.bodySeen + (n : Int) ≤ p.contentLength := by
      rw [← hn]
      unfold takes
      split <;> omega
    have size : (data.take n).length = n := by
      rw [List.length_take]
      omega
    have taken : data.take n ≠ [] := List.length_pos_iff.mp (by omega)
    refine ⟨data.take n, data.drop n, _, ?_, (List.take_append_drop n data).symm, taken,
      foldl_bodyLen len taken (by omega)⟩
    simp only [feedOnce, len, hn, emit_recording, size]
    rfl
  · by_cases eof : p.state = .bodyEof
    · refine ⟨data, [], _, ?_, (List.append_nil data).symm, some, foldl_bodyEof eof⟩
      simp only [feedOnce, eof, emit_recording]
      rfl
    · by_cases chunk : p.state = .chunkData
      · have left := expecting.chunkData chunk
        generalize hn : takes p.chunkLeft data.length = n
        have pos : 0 < data.length := List.length_pos_iff.mpr some
        have bounds : 0 < n ∧ n ≤ data.length ∧ (n : Int) ≤ p.chunkLeft := by
          rw [← hn]
          unfold takes
          split <;> omega
        have size : (data.take n).length = n := by
          rw [List.length_take]
          omega
        have taken : data.take n ≠ [] := List.length_pos_iff.mp (by omega)
        refine ⟨data.take n, data.drop n, _, ?_, (List.take_append_drop n data).symm, taken,
          foldl_chunkData chunk taken (by omega)⟩
        simp only [feedOnce, chunk, hn, emit_recording, size]
        by_cases last : p.chunkLeft = n
        · simp [last, lineReset]
        · have : ¬p.chunkLeft - n = 0 := by omega
          simp [last, this]
      · -- the states that read lines take one byte
        cases data with
        | nil => exact absurd rfl some
        | cons c rest =>
          refine ⟨[c], rest, feedByte (p, w) c, ?_, rfl, by simp, rfl⟩
          simp only [feedByte, if_pos run]
          cases hs : p.state <;> simp only [feedOnce, hs] <;> first
            | exact absurd hs len
            | exact absurd hs eof
            | exact absurd hs chunk
            | (split <;> rfl)

/-! ### What is still to come -/

section Cases

variable {ω : Type} (cb : Callbacks ω) (v : ω)

/-- The status line decides the status, and whether the headers follow. -/
theorem parseStatusLine_cases (p : HttpParser) :
    ∃ status state, (parseStatusLine cb p v).1 = { p with status, state } ∧
      (state = .error ∨ state = .headers) := by
  unfold parseStatusLine
  split
  · exact ⟨_, .error, rfl, .inl rfl⟩
  · split
    · exact ⟨_, .error, rfl, .inl rfl⟩
    · simp only
      split
      · exact ⟨_, .error, rfl, .inl rfl⟩
      · split
        · exact ⟨_, .error, rfl, .inl rfl⟩
        · split
          · exact ⟨_, .error, rfl, .inl rfl⟩
          · exact ⟨_, .headers, rfl, .inr rfl⟩

/-- The end of the headers decides how the body is framed. -/
theorem headersComplete_cases (p : HttpParser) :
    ∃ state, headersComplete p = { p with state } ∧
      (state = .done ∨ state = .chunkSize ∨ state = .bodyLen ∧ 0 < p.contentLength ∨
        state = .bodyEof) := by
  unfold headersComplete
  split
  · exact ⟨_, rfl, .inl rfl⟩
  · split
    · exact ⟨_, rfl, .inl rfl⟩
    · split
      · exact ⟨_, rfl, .inr (.inl rfl)⟩
      · split
        · exact ⟨_, rfl, .inl rfl⟩
        · split
          · rename_i positive
            exact ⟨_, rfl, .inr (.inr (.inl ⟨rfl, positive⟩))⟩
          · exact ⟨_, rfl, .inr (.inr (.inr rfl))⟩

/-- A header line decides nothing but the length, the encoding and the location. -/
theorem parseHeaderLine_cases (p : HttpParser) :
    ∃ contentLength chunked location,
      parseHeaderLine p = { p with contentLength, chunked, location } := by
  unfold parseHeaderLine
  split
  · split
    · exact ⟨_, _, _, rfl⟩
    · split
      · exact ⟨_, _, _, rfl⟩
      · exact ⟨_, _, _, rfl⟩
  · split
    · split
      · exact ⟨_, _, _, rfl⟩
      · exact ⟨_, _, _, rfl⟩
    · split
      · split
        · exact ⟨_, _, _, rfl⟩
        · exact ⟨_, _, _, rfl⟩
      · exact ⟨_, _, _, rfl⟩

theorem expecting_onLine {p : HttpParser} (h : Expecting p) : Expecting (onLine cb p v).1 := by
  unfold onLine
  cases hs : p.state with
  | status =>
    obtain ⟨status, state, eq, next⟩ := parseStatusLine_cases cb v p
    simp only [eq]
    have seen := h.early (.inl hs)
    rcases next with rfl | rfl
    · exact ⟨nofun, nofun, fun _ => seen⟩
    · exact ⟨nofun, nofun, fun _ => seen⟩
  | headers =>
    have seen := h.early (.inr hs)
    simp only
    split
    · obtain ⟨state, eq, next⟩ := headersComplete_cases p
      rw [eq]
      rcases next with rfl | rfl | ⟨rfl, positive⟩ | rfl
      · exact ⟨nofun, nofun, fun _ => seen⟩
      · exact ⟨nofun, nofun, fun _ => seen⟩
      · exact ⟨fun _ => by simpa [seen] using positive, nofun, fun _ => seen⟩
      · exact ⟨nofun, nofun, fun _ => seen⟩
    · obtain ⟨contentLength, chunked, location, eq⟩ := parseHeaderLine_cases p
      rw [eq]
      exact ⟨fun b => by simp [hs] at b, fun b => by simp [hs] at b, fun _ => seen⟩
  | chunkSize =>
    simp only
    split
    · exact ⟨nofun, nofun, by simp⟩
    · rename_i n _
      split
      · exact ⟨nofun, nofun, by simp⟩
      · split
        · exact ⟨nofun, nofun, by simp⟩
        · exact ⟨nofun, fun _ => by simp only; omega, by simp⟩
  | chunkCrlf =>
    simp only
    split
    · exact ⟨nofun, nofun, by simp⟩
    · exact ⟨nofun, nofun, by simp⟩
  | trailer =>
    simp only
    split
    · exact ⟨nofun, nofun, by simp⟩
    · exact h
  | bodyLen => exact h
  | bodyEof => exact h
  | chunkData => exact h
  | done => exact h
  | error => exact h

end Cases

theorem expecting_lineReset (h : Expecting p) : Expecting (lineReset p) :=
  ⟨h.bodyLen, h.chunkData, h.early⟩

theorem expecting_feedLine (h : Expecting p) (c : UInt8) : Expecting (feedLine p c).2 := by
  unfold feedLine
  split
  · exact ⟨h.bodyLen, h.chunkData, h.early⟩
  · split
    · exact ⟨h.bodyLen, h.chunkData, h.early⟩
    · exact ⟨h.bodyLen, h.chunkData, h.early⟩

/-- Every byte keeps what is expected. -/
theorem expecting_feedByte (h : Expecting s.1) (c : UInt8) : Expecting (feedByte s c).1 := by
  obtain ⟨p, w⟩ := s
  by_cases run : p.running = true
  · by_cases len : p.state = .bodyLen
    · have left : p.bodySeen < p.contentLength := h.bodyLen len
      rw [feedByte_bodyLen len left]
      simp only
      split
      · exact ⟨nofun, nofun, by simp⟩
      · exact ⟨fun _ => by simp only; omega, by simp [len], by simp [len]⟩
    · by_cases eof : p.state = .bodyEof
      · rw [feedByte_bodyEof eof]
        exact ⟨by simp [eof], by simp [eof], by simp [eof]⟩
      · by_cases chunk : p.state = .chunkData
        · have left : 0 < p.chunkLeft := h.chunkData chunk
          rw [feedByte_chunkData chunk left]
          simp only
          split
          · exact ⟨nofun, nofun, by simp⟩
          · exact ⟨by simp [chunk], fun _ => by simp only; omega, by simp [chunk]⟩
        · have line : feedOnce recording p w [c] =
              if (feedLine p c).1 then
                (lineReset (onLine recording (feedLine p c).2 w).1,
                  (onLine recording (feedLine p c).2 w).2, [])
              else ((feedLine p c).2, w, []) := by
            cases hs : p.state <;> simp only [feedOnce, hs] <;> first
              | exact absurd hs len
              | exact absurd hs eof
              | exact absurd hs chunk
          simp only [feedByte, if_pos run, line]
          split
          · exact expecting_lineReset (expecting_onLine _ _ (expecting_feedLine h c))
          · exact expecting_feedLine h c
  · rw [feedByte, if_neg run]
    exact h

theorem expecting_foldl (h : Expecting s.1) (d : List UInt8) :
    Expecting (d.foldl feedByte s).1 := by
  induction d generalizing s with
  | nil => exact h
  | cons c d ih => exact ih (expecting_feedByte h c)

/-! ### A chunk is its bytes -/

/-- When the parser is done or failed, bytes do nothing. -/
theorem foldl_stopped (stopped : ¬s.1.running = true) : d.foldl feedByte s = s := by
  induction d with
  | nil => rfl
  | cons c d ih => rw [List.foldl_cons, feedByte, if_neg stopped, ih]

theorem feedLoop_eq (fuel : Nat) (enough : data.length < fuel) (h : Expecting p) :
    ((feedLoop recording fuel p w data).1, (feedLoop recording fuel p w data).2.1) =
      data.foldl feedByte (p, w) := by
  induction fuel generalizing p w data with
  | zero => exact absurd enough (Nat.not_lt_zero _)
  | succ fuel ih =>
    rw [feedLoop]
    by_cases none : data = []
    · subst none
      simp
    · by_cases run : p.running = true
      · rw [if_neg (by simp [none, run])]
        obtain ⟨taken, rest, t, once, rfl, some, bytes⟩ := feedOnce_eq (w := w) h run none
        have more := expecting_foldl (s := (p, w)) h taken
        rw [bytes] at more
        have short : 0 < taken.length := List.length_pos_iff.mpr some
        rw [List.length_append] at enough
        rw [once, List.foldl_append, bytes]
        exact ih (by omega) more
      · rw [if_pos (by simp [run]), foldl_stopped run]

/-- Feeding a chunk is feeding its bytes. -/
theorem feed_eq_foldl (h : Expecting s.1) : feed s data = data.foldl feedByte s :=
  feedLoop_eq _ (Nat.lt_succ_self _) h

theorem foldl_feed (h : Expecting s.1) (chunks : List (List UInt8)) :
    chunks.foldl feed s = chunks.flatten.foldl feedByte s := by
  induction chunks generalizing s with
  | nil => rfl
  | cons chunk chunks ih =>
    have more := expecting_foldl h chunk
    rw [List.foldl_cons, feed_eq_foldl h, List.flatten_cons, List.foldl_append, ih more]

/-- However a response is split into chunks, the parser ends in the same state and the callbacks saw
the same header lines in the same order and the same body. -/
theorem feedAll_split (headOnly : Bool) {chunks chunks' : List (List UInt8)}
    (same : chunks.flatten = chunks'.flatten) :
    feedAll headOnly chunks = feedAll headOnly chunks' := by
  rw [feedAll, feedAll, foldl_feed (expecting_init headOnly), foldl_feed (expecting_init headOnly),
    same]

theorem feedAll_split_status :
    feedAll false [ascii "HTTP/1.1 2", ascii "00 OK\n"] =
      feedAll false [ascii "HTTP/1.1 200 OK\n"] :=
  feedAll_split false (by decide)

end HttpParser

end RPCortex.Http
