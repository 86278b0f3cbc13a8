import RPCortex.Web.Split

/-! Well-formed responses.  A response is its parts, and its bytes are what a server sends: a status
line, header fields, and a body that is framed by its length, by chunks or by the end of the
connection, or that the status rules out.  The lines fit the line buffer and the lengths the
counters of the parser. -/

namespace RPCortex.Http

open Lib

/-- Neither a line end nor a NUL. -/
def plain (c : UInt8) : Bool := c ≠ 0x00 ∧ c ≠ 0x0A ∧ c ≠ 0x0D

/-- A space or a tab. -/
def blank (c : UInt8) : Bool := c = 0x20 ∨ c = 0x09

/-- A visible character other than the colon. -/
def nameChar (c : UInt8) : Bool := 0x21 ≤ c ∧ c ≤ 0x7E ∧ c ≠ 0x3A

/-- The end of a line. -/
def crlf : List UInt8 := [0x0D, 0x0A]

/-- A line that the line buffer holds. -/
structure Line where
  bytes : List UInt8
  isPlain : ∀ c ∈ bytes, plain c = true
  fits : bytes.length < httpLineMax

/-- The line with its end. -/
def Line.wire (l : Line) : List UInt8 := l.bytes ++ crlf

/-- A header field: a name, blanks and a value with blanks behind it. -/
structure Field where
  name : List UInt8
  lead : List UInt8
  value : List UInt8
  line : Line
  name_chars : ∀ c ∈ name, nameChar c = true
  lead_blank : ∀ c ∈ lead, blank c = true
  value_start : value.head?.all fun c => !blank c
  is_line : line.bytes = name ++ 0x3A :: (lead ++ value)

/-- Whether the field has a name, which is given in lower case. -/
def Field.named (f : Field) (name : List UInt8) : Bool := f.name.map lower = name

/-- Digits of a base, one at least, whose number the parser's counters hold. -/
structure Number (base : Nat) where
  bytes : List UInt8
  some : bytes ≠ []
  isDigit : ∀ c ∈ bytes, (digit base c).isSome
  holds : ofDigits base (digits base bytes) < 2 ^ 63

def Number.val {base : Nat} (n : Number base) : Nat := ofDigits base (digits base n.bytes)

/-- What may stand behind a number: nothing, or what starts with a blank or a semicolon. -/
def separated (rest : List UInt8) : Bool := rest.head?.all fun c => blank c || c = 0x3B

/-- A chunk: its size, extensions and its data. -/
structure Chunk where
  size : Number 16
  ext : List UInt8
  data : List UInt8
  line : Line
  ext_separated : separated ext
  is_line : line.bytes = size.bytes ++ ext
  is_data : data.length = size.val

/-- The chunk in a body. -/
def Chunk.wire (c : Chunk) : List UInt8 :=
  c.line.wire ++ (c.data ++ if c.data = [] then [] else crlf)

/-- How a body is framed, with the body. -/
inductive Body
  | none
  | length (data : List UInt8)
  | chunked (chunks : List Chunk) (last : Chunk) (trailers : List Line)
  | close (data : List UInt8)

namespace Body

/-- The body that is meant. -/
def decoded : Body → List UInt8
  | .none => []
  | .length data => data
  | .chunked chunks _ _ => chunks.flatMap Chunk.data
  | .close data => data

/-- The body as it is sent. -/
def wire : Body → List UInt8
  | .none => []
  | .length data => data
  | .chunked chunks last trailers =>
    chunks.flatMap Chunk.wire ++ last.wire ++ trailers.flatMap Line.wire ++ crlf
  | .close data => data

/-- Chunks have data but for the last one, and trailers are not empty. -/
def Sound : Body → Prop
  | .none => True
  | .length _ => True
  | .chunked chunks last trailers =>
    (∀ c ∈ chunks, c.data ≠ []) ∧ last.data = [] ∧ ∀ l ∈ trailers, l.bytes ≠ []
  | .close _ => True

end Body

/-- The value of a `Content-Length` field: a number, and blanks. -/
def isLength (value : List UInt8) (n : Nat) : Prop :=
  ∃ (digits : Number 10) (rest : List UInt8), value = digits.bytes ++ rest ∧
    (∀ c ∈ rest, blank c = true) ∧ digits.val = n

/-- The codings of a `Transfer-Encoding` value, in lower case, without the blanks around them. -/
def codings (value : List UInt8) : List (List UInt8) :=
  (splitLines 0x2C (value.map lower)).map fun coding =>
    ((coding.dropWhile blank).reverse.dropWhile blank).reverse

/-- Whether `chunked` is among the codings of the fields. -/
def chunkedCoding (fields : List Field) : Prop :=
  ∃ f ∈ fields, f.named (ascii "transfer-encoding") = true ∧ ascii "chunked" ∈ codings f.value

/-- What the header fields say about the framing. -/
def Announced (fields : List Field) : Body → Prop
  | .none => True
  | .length data =>
    (∃ f ∈ fields, f.named (ascii "content-length")) ∧
      (∀ f ∈ fields, f.named (ascii "content-length") → isLength f.value data.length) ∧
      ∀ f ∈ fields, ¬f.named (ascii "transfer-encoding")
  | .chunked _ _ _ =>
    chunkedCoding fields ∧ ∀ f ∈ fields, ¬f.named (ascii "content-length")
  | .close _ =>
    (∀ f ∈ fields, ¬f.named (ascii "content-length")) ∧ ¬chunkedCoding fields

/-- A well-formed response. -/
structure Response where
  version : List UInt8
  code : Number 10
  reason : List UInt8
  statusLine : Line
  fields : List Field
  body : Body
  version_chars : ∀ c ∈ version, nameChar c = true
  reason_separated : reason.head?.all blank
  is_status : statusLine.bytes = ascii "HTTP/" ++ version ++ 0x20 :: (code.bytes ++ reason)
  status_range : 100 ≤ code.val ∧ code.val ≤ 599
  bodiless : code.val = 204 ∨ code.val = 304 ↔ body = .none
  sound : body.Sound
  announced : Announced fields body

namespace Response

/-- The status line and the header fields, with the empty line behind them. -/
def head (r : Response) : List UInt8 :=
  r.statusLine.wire ++ r.fields.flatMap (fun f => f.line.wire) ++ crlf

/-- The response as it is sent. -/
def wire (r : Response) : List UInt8 := r.head ++ r.body.wire

/-- Whether the body ends with the connection. -/
def closes (r : Response) : Bool :=
  match r.body with
  | .close _ => true
  | _ => false

/-- What the parser is to make of the response: the body as it is meant, and done with its last byte
or, when the connection ends the body, with that; and not done with less of the bytes. -/
structure Delivered (r : Response) : Prop where
  whole : ∀ chunks, chunks.flatten = r.wire →
    (HttpParser.feedAll false chunks).2.body = r.body.decoded ∧
      if r.closes then
        (HttpParser.feedAll false chunks).1.httpParserEof.done = true
      else (HttpParser.feedAll false chunks).1.done = true
  truncated : r.closes = false → ∀ chunks, chunks.flatten <+: r.wire → chunks.flatten ≠ r.wire →
    (HttpParser.feedAll false chunks).1.httpParserEof.done = false

/-- Whether the parser sees `chunked` in a field: it looks at the front of the value only. -/
def showsChunked (fields : List Field) : Prop :=
  ∃ f ∈ fields, f.named (ascii "transfer-encoding") = true ∧ namesChunked f.value = true

/-- When there is a body, the parser sees `chunked` exactly when the body is chunked. -/
def Visible (r : Response) : Prop :=
  match r.body with
  | .none => True
  | .chunked _ _ _ => showsChunked r.fields
  | _ => ¬showsChunked r.fields

end Response

end RPCortex.Http

/-! Lines, numbers and fields as the parser reads them. -/

namespace RPCortex.Http

open Lib HttpParser

/-- A state that reads lines. -/
def HttpState.readsLines (s : HttpState) : Bool :=
  s = .status ∨ s = .headers ∨ s = .chunkSize ∨ s = .chunkCrlf ∨ s = .trailer

/-- No proper front of the bytes ends the response, and none leaves it to the connection to. -/
def Waits (s : Recorded) (d : List UInt8) : Prop :=
  ∀ k < d.length, ((d.take k).foldl feedByte s).1.state ≠ .done ∧
    ((d.take k).foldl feedByte s).1.state ≠ .bodyEof

variable {p : HttpParser} {w : Log} {s : Recorded} {d e : List UInt8} {c : UInt8} {l : Line}

theorem waits_nil : Waits s [] := fun _ h => absurd h (Nat.not_lt_zero _)

theorem Waits.append (first : Waits s d) (second : Waits (d.foldl feedByte s) e) :
    Waits s (d ++ e) := by
  intro k hk
  rw [List.length_append] at hk
  rcases Nat.lt_or_ge k d.length with lt | ge
  · rw [List.take_append_of_le_length (Nat.le_of_lt lt)]
    exact first k lt
  · rw [List.take_append, List.take_of_length_le ge, List.foldl_append]
    exact second (k - d.length) (by omega)

/-! ### Lines -/

theorem feedByte_line (reads : p.state.readsLines = true) :
    feedByte (p, w) c =
      if (feedLine p c).1 then
        (lineReset (onLine recording (feedLine p c).2 w).1,
          (onLine recording (feedLine p c).2 w).2)
      else ((feedLine p c).2, w) := by
  have run : p.running = true := by
    cases hs : p.state <;> simp_all [HttpState.readsLines, running, done, failed]
  rw [feedByte, if_pos run]
  cases ready : (feedLine p c).1 with
  | false =>
    cases hs : p.state <;> first
      | exact absurd reads (by rw [hs]; decide)
      | simp [feedOnce, hs, ready]
  | true =>
    cases hs : p.state <;> first
      | exact absurd reads (by rw [hs]; decide)
      | simp [feedOnce, hs, ready]

/-- Bytes before the line end are kept while there is room. -/
theorem foldl_open (reads : p.state.readsLines = true) (short : p.line.length < httpLineMax)
    (noEnd : ∀ c ∈ d, c ≠ 0x0A) :
    d.foldl feedByte (p, w) =
      ({ p with
          line := (p.line ++ d).take (httpLineMax - 1)
          lineOver := p.lineOver || decide (httpLineMax ≤ (p.line ++ d).length) }, w) := by
  induction d generalizing p with
  | nil =>
    have whole : p.line.take (httpLineMax - 1) = p.line := List.take_of_length_le (by omega)
    have under : ¬httpLineMax ≤ p.line.length := by omega
    rw [List.foldl_nil, List.append_nil, whole, decide_eq_false under, Bool.or_false]
  | cons c d ih =>
    have hc : c ≠ 0x0A := noEnd c (by simp)
    rw [List.foldl_cons, feedByte_line reads]
    unfold feedLine
    rw [if_neg hc]
    by_cases room : p.line.length + 1 < httpLineMax
    · rw [if_pos room]
      simp only [Bool.false_eq_true, if_false]
      rw [ih (p := { p with line := p.line ++ [c] }) reads (by simpa using room)
        fun x hx => noEnd x (by simp [hx])]
      simp
    · rw [if_neg room]
      simp only [Bool.false_eq_true, if_false]
      rw [ih (p := { p with lineOver := true }) reads short fun x hx => noEnd x (by simp [hx])]
      have full : p.line.length = httpLineMax - 1 := by omega
      have tooLong : httpLineMax ≤ (p.line ++ c :: d).length := by
        rw [List.length_append, List.length_cons]
        omega
      have same : (p.line ++ c :: d).take (httpLineMax - 1) =
          (p.line ++ d).take (httpLineMax - 1) := by
        rw [List.take_append, List.take_append, full, Nat.sub_self, List.take_zero, List.take_zero]
      simp only [Bool.true_or, same, decide_eq_true tooLong, Bool.or_true]

theorem plain_ne {c : UInt8} (h : plain c = true) : c ≠ 0x00 ∧ c ≠ 0x0A ∧ c ≠ 0x0D := by
  simpa [plain] using h

theorem Line.zero_notMem (l : Line) : 0 ∉ l.bytes :=
  fun h => (plain_ne (l.isPlain 0 h)).1 rfl

/-- A line is handled when its end is there. -/
theorem foldl_line (l : Line) (reads : p.state.readsLines = true) (fresh : p.line = []) :
    l.wire.foldl feedByte (p, w) =
      (lineReset (onLine recording { p with line := l.bytes, lineOver := false } w).1,
        (onLine recording { p with line := l.bytes, lineOver := false } w).2) := by
  have fits := l.fits
  have noEnd : ∀ c ∈ l.bytes ++ [0x0D], c ≠ 0x0A := by
    intro c hc
    rcases List.mem_append.mp hc with hc | hc
    · exact (plain_ne (l.isPlain c hc)).2.1
    · obtain rfl := List.mem_singleton.mp hc
      decide
  have wire : l.wire = (l.bytes ++ [0x0D]) ++ [0x0A] := by simp [Line.wire, crlf]
  rw [wire, List.foldl_append, foldl_open reads (by simp [fresh]) noEnd, List.foldl_cons,
    List.foldl_nil, fresh, List.nil_append]
  -- the CR is dropped, be it in the buffer or not
  have stripped : (if ((l.bytes ++ [0x0D]).take (httpLineMax - 1)).getLast? = some 0x0D then
      ((l.bytes ++ [0x0D]).take (httpLineMax - 1)).dropLast
      else (l.bytes ++ [0x0D]).take (httpLineMax - 1)) = l.bytes := by
    rcases Nat.lt_or_ge l.bytes.length (httpLineMax - 1) with lt | ge
    · rw [List.take_of_length_le (by rw [List.length_append, List.length_singleton]; omega)]
      simp
    · rw [List.take_append_of_le_length ge, List.take_of_length_le (by omega), if_neg]
      intro last
      exact (plain_ne (l.isPlain _ (List.mem_of_getLast? last))).2.2 rfl
  rw [feedByte_line]
  · simp only [feedLine, if_true, stripped]
  · exact reads

theorem waits_line (l : Line) (reads : p.state.readsLines = true) (fresh : p.line = []) :
    Waits (p, w) l.wire := by
  intro k hk
  have size : l.wire.length = l.bytes.length + 2 := by simp [Line.wire, crlf]
  have front : l.wire.take k = (l.bytes ++ [0x0D]).take k := by
    have wire : l.wire = (l.bytes ++ [0x0D]) ++ [0x0A] := by simp [Line.wire, crlf]
    rw [wire, List.take_append_of_le_length]
    rw [List.length_append, List.length_singleton]
    omega
  rw [front, foldl_open reads (by simp [fresh])]
  · cases hs : p.state <;> simp_all [HttpState.readsLines]
  · intro c hc
    rcases List.mem_append.mp (List.mem_of_mem_take hc) with hc | hc
    · exact (plain_ne (l.isPlain c hc)).2.1
    · obtain rfl := List.mem_singleton.mp hc
      decide

/-- The empty line. -/
def emptyLine : Line := ⟨[], by simp, by decide⟩

theorem wire_emptyLine : emptyLine.wire = crlf := rfl

end RPCortex.Http
