import RPCortex.Web.Fields

/-! What the parser makes of a well-formed response.  It delivers the body as it is framed exactly
when it sees the framing: `chunked` is looked for in the front of the value only, as a part of any
word. -/

namespace RPCortex.Http

open Lib HttpParser

variable {p : HttpParser} {w : Log} {s : Recorded} {d e : List UInt8} {c : UInt8}

/-- The bytes lead to a state with their last byte, and to a body. -/
structure Reaches (s : Recorded) (d : List UInt8) (state : HttpState) (body : List UInt8) :
    Prop where
  waits : Waits s d
  state : (d.foldl feedByte s).1.state = state
  fresh : (d.foldl feedByte s).1.line = []
  body : (d.foldl feedByte s).2.body = s.2.body ++ body

theorem Reaches.append {st st' : HttpState} {b b' : List UInt8} (first : Reaches s d st b)
    (second : Reaches (d.foldl feedByte s) e st' b') : Reaches s (d ++ e) st' (b ++ b') := by
  refine ⟨first.waits.append second.waits, ?_, ?_, ?_⟩
  · rw [List.foldl_append, second.state]
  · rw [List.foldl_append, second.fresh]
  · rw [List.foldl_append, second.body, first.body, List.append_assoc]

/-- A line is read when the state reads lines, and leads where it is said to. -/
theorem reaches_line {st : HttpState} (l : Line) (reads : s.1.state.readsLines = true)
    (fresh : s.1.line = [])
    (state : (onLine recording { s.1 with line := l.bytes, lineOver := false } s.2).1.state = st)
    (body : (onLine recording { s.1 with line := l.bytes, lineOver := false } s.2).2.body =
      s.2.body) : Reaches s l.wire st [] := by
  obtain ⟨p, w⟩ := s
  refine ⟨waits_line l reads fresh, ?_, ?_, ?_⟩
  · rw [foldl_line l reads fresh]
    exact state
  · rw [foldl_line l reads fresh]
    rfl
  · rw [foldl_line l reads fresh, List.append_nil]
    exact body

/-! ### Chunks -/

/-- The size line of a chunk. -/
theorem strtoint_chunk (c : Chunk) :
    strtoint (2 ^ 63) 16 c.line.bytes = some (c.data.length : Int) := by
  rw [c.is_line, c.is_data]
  exact strtoint_number c.size (.inr rfl) c.size.holds (stops_separated c.ext_separated)

theorem onLine_chunkSize (hs : p.state = .chunkSize) (c : Chunk) (text : p.text = c.line.bytes) :
    onLine recording p w =
      (if c.data = [] then { p with state := .trailer }
        else { p with chunkLeft := c.data.length, state := .chunkData }, w) := by
  rw [onLine, hs]
  simp only [text, strtoint_chunk]
  rw [if_neg (by omega)]
  by_cases none : c.data = []
  · rw [if_pos none, if_pos (by simp [none])]
  · rw [if_neg none, if_neg (by simpa using none)]

/-- The data of a chunk. -/
theorem reaches_chunkData (hs : p.state = .chunkData) (some : d ≠ [])
    (left : p.chunkLeft = d.length) : Reaches (p, w) d .chunkCrlf d := by
  have all := foldl_chunkData (w := w) hs some (by rw [left])
  rw [if_pos left] at all
  refine ⟨?_, by rw [all], by rw [all], by rw [all]⟩
  intro k hk
  rcases Nat.eq_zero_or_pos k with rfl | pos
  · simp [hs]
  · have size : (d.take k).length = k := by
      rw [List.length_take]
      omega
    have front := foldl_chunkData (w := w) (d := d.take k) hs
      (List.length_pos_iff.mp (by omega)) (by omega)
    rw [front, if_neg (by omega)]
    simp [hs]

/-- The line end behind the data of a chunk. -/
theorem reaches_chunkCrlf (hs : s.1.state = .chunkCrlf) (fresh : s.1.line = []) :
    Reaches s crlf .chunkSize [] :=
  reaches_line emptyLine (by rw [hs]; rfl) fresh (by simp [onLine, hs, emptyLine])
    (by simp [onLine, hs, emptyLine])

/-- The empty line behind the trailers. -/
theorem reaches_trailerEnd (hs : s.1.state = .trailer) (fresh : s.1.line = []) :
    Reaches s crlf .done [] :=
  reaches_line emptyLine (by rw [hs]; rfl) fresh (by simp [onLine, hs, emptyLine])
    (by simp [onLine, hs, emptyLine])

/-- A chunk that is not the last. -/
theorem reaches_chunk (c : Chunk) (hs : s.1.state = .chunkSize) (fresh : s.1.line = [])
    (some : c.data ≠ []) : Reaches s c.wire .chunkSize c.data := by
  obtain ⟨p, w⟩ := s
  have reads : p.state.readsLines = true := by rw [show p.state = _ from hs]; rfl
  have line : c.line.wire.foldl feedByte (p, w) =
      ({ p with line := [], lineOver := false, chunkLeft := c.data.length, state := .chunkData },
        w) := by
    rw [foldl_line c.line reads fresh,
      onLine_chunkSize (p := { p with line := c.line.bytes, lineOver := false }) hs c
        (text_line c.line p), if_neg some]
    rfl
  have size : Reaches (p, w) c.line.wire .chunkData [] :=
    ⟨waits_line c.line reads fresh, by rw [line], by rw [line], by rw [line, List.append_nil]⟩
  have data : Reaches (c.line.wire.foldl feedByte (p, w)) c.data .chunkCrlf c.data := by
    rw [line]
    exact reaches_chunkData rfl some rfl
  have both := size.append data
  rw [List.nil_append] at both
  have all := both.append (reaches_chunkCrlf both.state both.fresh)
  rw [List.append_nil, List.append_assoc] at all
  rw [Chunk.wire, if_neg some]
  exact all

theorem reaches_chunks (chunks : List Chunk) (hs : s.1.state = .chunkSize) (fresh : s.1.line = [])
    (some : ∀ c ∈ chunks, c.data ≠ []) :
    Reaches s (chunks.flatMap Chunk.wire) .chunkSize (chunks.flatMap Chunk.data) := by
  induction chunks generalizing s with
  | nil => exact ⟨waits_nil, hs, fresh, (List.append_nil _).symm⟩
  | cons c chunks ih =>
    have first := reaches_chunk c hs fresh (some c (by simp))
    exact first.append (ih first.state first.fresh fun x hx => some x (by simp [hx]))

/-- The last chunk. -/
theorem reaches_last (last : Chunk) (hs : s.1.state = .chunkSize) (fresh : s.1.line = [])
    (none : last.data = []) : Reaches s last.wire .trailer [] := by
  have line : last.wire = last.line.wire := by simp [Chunk.wire, none]
  have eq := onLine_chunkSize (p := { s.1 with line := last.line.bytes, lineOver := false })
    (w := s.2) hs last (text_line last.line s.1)
  rw [if_pos none] at eq
  rw [line]
  exact reaches_line last.line (by rw [hs]; rfl) fresh (by rw [eq]) (by rw [eq])

theorem reaches_trailers (trailers : List Line) (hs : s.1.state = .trailer) (fresh : s.1.line = [])
    (some : ∀ l ∈ trailers, l.bytes ≠ []) :
    Reaches s (trailers.flatMap Line.wire) .trailer [] := by
  induction trailers generalizing s with
  | nil => exact ⟨waits_nil, hs, fresh, (List.append_nil _).symm⟩
  | cons l trailers ih =>
    have ne : l.bytes ≠ [] := some l (by simp)
    have first : Reaches s l.wire .trailer [] :=
      reaches_line l (by rw [hs]; rfl) fresh (by simp [onLine, hs, ne]) (by simp [onLine, hs, ne])
    exact first.append (ih first.state first.fresh fun x hx => some x (by simp [hx]))

/-- A chunked body, from the first size line on. -/
theorem reaches_chunked {chunks : List Chunk} {last : Chunk} {trailers : List Line}
    (sound : (Body.chunked chunks last trailers).Sound) (hs : s.1.state = .chunkSize)
    (fresh : s.1.line = []) :
    Reaches s (Body.chunked chunks last trailers).wire .done
      (Body.chunked chunks last trailers).decoded := by
  obtain ⟨some, none, lines⟩ := sound
  have data := reaches_chunks chunks hs fresh some
  have size := data.append (reaches_last last data.state data.fresh none)
  have rest := size.append (reaches_trailers trailers size.state size.fresh lines)
  have all := rest.append (reaches_trailerEnd rest.state rest.fresh)
  rw [List.append_nil, List.append_nil, List.append_nil] at all
  exact all

/-! ### Bodies of known length -/

theorem reaches_bodyLen (hs : p.state = .bodyLen) (fresh : p.line = []) (some : d ≠ [])
    (start : p.bodySeen = 0) (len : p.contentLength = d.length) :
    Reaches (p, w) d .done d := by
  have all := foldl_bodyLen (w := w) hs some (by omega)
  rw [if_pos (by omega)] at all
  refine ⟨?_, by rw [all], by rw [all]; exact fresh, by rw [all]⟩
  intro k hk
  rcases Nat.eq_zero_or_pos k with rfl | pos
  · simp [hs]
  · have size : (d.take k).length = k := by
      rw [List.length_take]
      omega
    have front := foldl_bodyLen (w := w) (d := d.take k) hs
      (List.length_pos_iff.mp (by omega)) (by omega)
    rw [front, if_neg (by omega)]
    simp [hs]

/-! ### Whole responses -/

/-- The parser before the first byte. -/
abbrev start : Recorded := (init false, ⟨[], []⟩)

theorem feedAll_eq (chunks : List (List UInt8)) :
    feedAll false chunks = chunks.flatten.foldl feedByte start :=
  foldl_feed (expecting_init false) chunks

/-- What was not done and waits for no end is not done when the connection ends. -/
theorem httpParserEof_waits (notDone : p.state ≠ .done) (notEof : p.state ≠ .bodyEof) :
    p.httpParserEof.done = false := by
  unfold httpParserEof
  rw [if_neg notEof]
  split
  · rfl
  · exact decide_eq_false notDone

/-- A response that the parser is done with at its last byte is delivered. -/
theorem delivered_of_reaches {r : Response} (stays : r.closes = false)
    (reaches : Reaches start r.wire .done r.body.decoded) : r.Delivered := by
  constructor
  · intro chunks all
    rw [feedAll_eq, all, stays, if_neg Bool.false_ne_true]
    exact ⟨reaches.body, decide_eq_true reaches.state⟩
  · rintro - chunks ⟨rest, part⟩ proper
    have front : chunks.flatten = r.wire.take chunks.flatten.length := by
      rw [← part, List.take_left]
    have shorter : chunks.flatten.length < r.wire.length := by
      rw [← part, List.length_append]
      have : rest ≠ [] := by
        rintro rfl
        exact proper (by rw [← part, List.append_nil])
      have := List.length_pos_iff.mpr this
      omega
    obtain ⟨notDone, notEof⟩ := reaches.waits _ shorter
    rw [← front] at notDone notEof
    rw [feedAll_eq]
    exact httpParserEof_waits notDone notEof

/-- Where the empty line behind the header leads, when the status allows a body. -/
def afterHeaders (p : HttpParser) : HttpState :=
  if p.chunked then .chunkSize
  else if p.contentLength = 0 then .done
  else if 0 < p.contentLength then .bodyLen
  else .bodyEof

theorem headersComplete_body (get : p.headOnly = false)
    (body : ¬(p.status = 204 ∨ p.status = 304)) :
    headersComplete p = { p with state := afterHeaders p } := by
  unfold headersComplete afterHeaders
  rw [if_neg (by rw [get]; decide), if_neg body]
  split
  · rfl
  · split
    · rfl
    · split <;> rfl

/-- A line adds nothing to the body. -/
theorem body_onLine (p : HttpParser) (w : Log) : (onLine recording p w).2.body = w.body := by
  unfold onLine
  split
  · unfold parseStatusLine
    split
    · rfl
    · split
      · rfl
      · simp only
        split
        · rfl
        · split
          · rfl
          · split <;> rfl
  · split <;> rfl
  · split
    · rfl
    · split
      · rfl
      · split <;> rfl
  · split <;> rfl
  · split <;> rfl
  · rfl

/-- A response without a body is complete with its header. -/
theorem head_bodiless (r : Response) (none : r.body = .none) : Reaches start r.head .done [] := by
  obtain ⟨p, w, known, eq, waits⟩ := foldl_head r
  have get : p.headOnly = false := known.headOnly
  have status : p.status = r.code.val := known.status
  have code := r.bodiless.mpr none
  have complete : headersComplete { p with line := [], lineOver := false } =
      { p with line := [], lineOver := false, state := .done } := by
    unfold headersComplete
    rw [if_neg (by simp [get]), if_pos (by simp only [status]; omega)]
  rw [complete] at eq
  exact ⟨waits, by rw [eq]; rfl, by rw [eq]; rfl, by rw [eq]; exact known.body⟩

/-- The header of a response with a body leads to the state that its fields ask for. -/
theorem head_body (r : Response) (some : r.body ≠ .none) : ∃ p w, Knows r r.fields (p, w) ∧
    r.head.foldl feedByte start =
      ({ p with line := [], lineOver := false, state := afterHeaders p }, w) ∧
    Reaches start r.head (afterHeaders p) [] := by
  obtain ⟨p, w, known, eq, waits⟩ := foldl_head r
  have get : p.headOnly = false := known.headOnly
  have status : p.status = r.code.val := known.status
  have code : ¬(r.code.val = 204 ∨ r.code.val = 304) := fun h => some (r.bodiless.mp h)
  have complete : headersComplete { p with line := [], lineOver := false } =
      { p with line := [], lineOver := false, state := afterHeaders p } :=
    headersComplete_body (p := { p with line := [], lineOver := false }) get
      (by simp only [status]; omega)
  rw [complete] at eq
  exact ⟨p, w, known, eq, waits, by rw [eq]; rfl, by rw [eq]; rfl, by rw [eq]; exact known.body⟩

/-- A chunked response that shows it. -/
theorem delivered_chunked (r : Response) {chunks : List Chunk} {last : Chunk} {trailers : List Line}
    (body : r.body = .chunked chunks last trailers) (shows : Response.showsChunked r.fields) :
    r.Delivered := by
  obtain ⟨p, w, known, eq, head⟩ := head_body r (by simp [body])
  have chunked : p.chunked = true := known.chunked.mpr shows
  have next : afterHeaders p = .chunkSize := if_pos chunked
  rw [next] at head
  have sound := r.sound
  rw [body] at sound
  refine delivered_of_reaches (by rw [Response.closes, body]) ?_
  have all := head.append (reaches_chunked sound head.state head.fresh)
  rw [← body] at all
  exact all

/-- A response with a length. -/
theorem delivered_length (r : Response) {data : List UInt8} (body : r.body = .length data) :
    r.Delivered := by
  obtain ⟨p, w, known, eq, head⟩ := head_body r (by simp [body])
  have announced := r.announced
  rw [body] at announced
  obtain ⟨some, all, plainly⟩ := announced
  have whole : ¬p.chunked = true := by
    rw [known.chunked]
    rintro ⟨f, hf, named, -⟩
    exact plainly f hf named
  have len : p.contentLength = data.length := known.length data.length all some
  refine delivered_of_reaches (by rw [Response.closes, body]) ?_
  have parts : r.wire = r.head ++ data := by rw [Response.wire, body]; rfl
  have meant : r.body.decoded = data := by rw [body]; rfl
  rw [parts, meant]
  by_cases empty : data = []
  · have next : afterHeaders p = .done := by
      rw [afterHeaders, if_neg whole, if_pos (by simp [len, empty])]
    rw [next] at head
    rw [empty, List.append_nil]
    exact head
  · have pos : 0 < data.length := List.length_pos_iff.mpr empty
    have next : afterHeaders p = .bodyLen := by
      rw [afterHeaders, if_neg whole, if_neg (by omega), if_pos (by omega)]
    have seen : p.bodySeen = 0 := known.bodySeen
    have rest : Reaches (r.head.foldl feedByte start) data .done data := by
      rw [eq]
      exact reaches_bodyLen next rfl empty seen len
    exact head.append rest

/-- A response that the end of the connection ends. -/
theorem delivered_close (r : Response) {data : List UInt8} (body : r.body = .close data)
    (shows : ¬Response.showsChunked r.fields) : r.Delivered := by
  obtain ⟨p, w, known, eq, head⟩ := head_body r (by simp [body])
  have announced := r.announced
  rw [body] at announced
  have whole : ¬p.chunked = true := by rwa [known.chunked]
  have len : p.contentLength = -1 := known.noLength announced.1
  have next : afterHeaders p = .bodyEof := by
    rw [afterHeaders, if_neg whole, if_neg (by omega), if_neg (by omega)]
  have closes : r.closes = true := by rw [Response.closes, body]
  constructor
  · intro chunks all
    have parts : r.wire = r.head ++ data := by rw [Response.wire, body]; rfl
    have none : w.body = [] := known.body
    rw [feedAll_eq, all, closes, if_pos rfl, parts, List.foldl_append, eq, foldl_bodyEof next, body]
    refine ⟨?_, ?_⟩
    · simp only [none, List.nil_append]
      rfl
    · simp [httpParserEof, next, done]
  · intro stays
    rw [closes] at stays
    exact absurd stays.symm Bool.false_ne_true

/-- When the parser sees how the body is framed, it delivers it. -/
theorem delivered_of_visible (r : Response) (visible : r.Visible) : r.Delivered := by
  unfold Response.Visible at visible
  cases body : r.body with
  | none =>
    refine delivered_of_reaches (by rw [Response.closes, body]) ?_
    have head := head_bodiless r body
    have parts : r.wire = r.head := by
      rw [Response.wire, body]
      exact List.append_nil _
    rw [parts, body]
    exact head
  | length data => exact delivered_length r body
  | chunked chunks last trailers =>
    rw [body] at visible
    exact delivered_chunked r body visible
  | close data =>
    rw [body] at visible
    exact delivered_close r body visible

/-! ### Framing that is not seen -/

/-- A byte adds one byte to the body at most. -/
theorem body_feedByte (s : Recorded) (c : UInt8) :
    (feedByte s c).2.body.length ≤ s.2.body.length + 1 := by
  obtain ⟨p, w⟩ := s
  by_cases run : p.running = true
  · by_cases reads : p.state.readsLines = true
    · rw [feedByte_line reads]
      split
      · simp [body_onLine]
      · simp
    · cases hs : p.state with
      | bodyLen => simp [feedByte, run, feedOnce, hs, emit_recording]
      | bodyEof => simp [feedByte, run, feedOnce, hs, emit_recording]
      | chunkData => simp [feedByte, run, feedOnce, hs, emit_recording]
      | done => simp [running, done, hs] at run
      | error => simp [running, failed, hs] at run
      | _ => simp [HttpState.readsLines, hs] at reads
  · rw [feedByte, if_neg run]
    exact Nat.le_succ _

theorem body_foldl (d : List UInt8) (s : Recorded) :
    (d.foldl feedByte s).2.body.length ≤ s.2.body.length + d.length := by
  induction d generalizing s with
  | nil => exact Nat.le_refl _
  | cons c d ih =>
    have first := body_feedByte s c
    have rest := ih (feedByte s c)
    rw [List.foldl_cons, List.length_cons]
    omega

/-- What is delivered is seen. -/
theorem visible_of_delivered (r : Response) (delivered : r.Delivered) : r.Visible := by
  obtain ⟨data, finished⟩ := delivered.whole [r.wire] (by simp)
  rw [feedAll_eq, List.flatten_singleton, Response.wire, List.foldl_append] at data finished
  unfold Response.Visible
  have announced := r.announced
  cases body : r.body with
  | none => exact trivial
  | length _ =>
    rw [body] at announced
    rintro ⟨f, hf, named, -⟩
    exact announced.2.2 f hf named
  | chunked chunks last trailers =>
    by_contra hidden
    obtain ⟨p, w, known, eq, head⟩ := head_body r (by simp [body])
    rw [body] at announced
    have whole : ¬p.chunked = true := by rwa [known.chunked]
    have len : p.contentLength = -1 := known.noLength announced.2
    have next : afterHeaders p = .bodyEof := by
      rw [afterHeaders, if_neg whole, if_neg (by omega), if_neg (by omega)]
    -- without a length and without chunks the body goes on to the end of the connection
    rw [eq, foldl_bodyEof next, Response.closes, body, if_neg Bool.false_ne_true] at finished
    simp [done, next] at finished
  | close sent =>
    intro shows
    obtain ⟨p, w, known, eq, head⟩ := head_body r (by simp [body])
    have chunked : p.chunked = true := known.chunked.mpr shows
    have next : afterHeaders p = .chunkSize := if_pos chunked
    have none : w.body = [] := known.body
    have sends : r.body.wire = sent := by rw [body]; rfl
    have meant : r.body.decoded = sent := by rw [body]; rfl
    rw [eq, sends] at data finished
    rw [meant] at data
    cases sent with
    | nil =>
      rw [Response.closes, body, if_pos rfl] at finished
      simp [httpParserEof, running, done, failed, next] at finished
    | cons c sent =>
      -- the first byte goes to a size line
      have first : (feedByte ({ p with line := [], lineOver := false, state := afterHeaders p }, w)
          c).2.body = [] := by
        rw [next, feedByte_line rfl]
        split
        · rw [body_onLine]
          exact none
        · exact none
      have most := body_foldl sent
        (feedByte ({ p with line := [], lineOver := false, state := afterHeaders p }, w) c)
      rw [List.foldl_cons] at data
      rw [data, first, List.length_cons, List.length_nil] at most
      omega

/-- The parser makes of a well-formed response what it is to make of it exactly when it sees how the
body is framed. -/
theorem delivered_iff (r : Response) : r.Delivered ↔ r.Visible :=
  ⟨visible_of_delivered r, delivered_of_visible r⟩

/-- The last chunk and the line behind it are all of this body; its coding is named behind others
that a server may name in front of it, and the value is longer than what the parser looks at. -/
def lateChunked : Response where
  version := ascii "1.1"
  code := ⟨ascii "200", by decide +kernel, by decide +kernel, by decide +kernel⟩
  reason := ascii " OK"
  statusLine := ⟨ascii "HTTP/1.1 200 OK", by decide +kernel, by decide +kernel⟩
  fields := [{
    name := ascii "Transfer-Encoding"
    lead := ascii " "
    value := ascii "gzip, deflate, compress, x-gzip, x-compress, chunked"
    line := ⟨ascii "Transfer-Encoding: gzip, deflate, compress, x-gzip, x-compress, chunked",
      by decide +kernel, by decide +kernel⟩
    name_chars := by decide +kernel
    lead_blank := by decide +kernel
    value_start := by decide +kernel
    is_line := by decide +kernel }]
  body := .chunked []
    { size := ⟨ascii "0", by decide +kernel, by decide +kernel, by decide +kernel⟩
      ext := []
      data := []
      line := ⟨ascii "0", by decide +kernel, by decide +kernel⟩
      ext_separated := by decide +kernel
      is_line := by decide +kernel
      is_data := by decide +kernel } []
  version_chars := by decide +kernel
  reason_separated := by decide +kernel
  is_status := by decide +kernel
  status_range := by decide +kernel
  bodiless := ⟨fun h => absurd h (by decide +kernel), nofun⟩
  sound := ⟨by simp, rfl, by simp⟩
  announced := by
    refine ⟨⟨_, List.mem_singleton.mpr rfl, by decide +kernel, by decide +kernel⟩, ?_⟩
    intro f hf
    obtain rfl := List.mem_singleton.mp hf
    decide +kernel

/-- Not every well-formed response is delivered. -/
theorem not_all_delivered : ¬∀ r : Response, r.Delivered := by
  intro all
  obtain ⟨f, hf, -, names⟩ := visible_of_delivered lateChunked (all lateChunked)
  have := List.mem_singleton.mp hf
  rw [this] at names
  exact absurd names (by decide +kernel)

end RPCortex.Http
