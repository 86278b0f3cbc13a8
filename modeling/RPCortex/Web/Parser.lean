import RPCortex.Lib.Bytes
import RPCortex.Lib.CNumber

/-! `httpparse.cpp`: the response parser, which is fed bytes as they arrive.  The state of the
world that the sink and the header callback change is passed along. -/

namespace RPCortex.Http

open Lib

/-- `HTTP_LOC_MAX`. -/
abbrev httpLocMax : Nat := 200

/-- `HTTP_LINE_MAX`. -/
abbrev httpLineMax : Nat := 256

/-- `HttpState`. -/
inductive HttpState
  | status
  | headers
  | bodyLen
  | bodyEof
  | chunkSize
  | chunkData
  | chunkCrlf
  | trailer
  | done
  | error
  deriving DecidableEq

/-- `HttpParser`, without the callbacks. -/
structure HttpParser where
  state : HttpState
  status : Int
  contentLength : Int
  bodySeen : Int
  chunked : Bool
  location : List UInt8
  line : List UInt8
  lineOver : Bool
  chunkLeft : Int
  sinkRc : Int
  headOnly : Bool
  deriving DecidableEq

/-- The sink, which gets the parser's state too, and the header callback; each may be null. -/
structure Callbacks (ω : Type) where
  sink : Option (HttpParser → List UInt8 → ω → Int × ω)
  header : Option (List UInt8 → ω → ω)

/-! ### Header lines -/

/-- `lower`. -/
def lower (c : UInt8) : UInt8 := if 0x41 ≤ c ∧ c ≤ 0x5A then c + 32 else c

/-- The rest of a line behind a name, in any case. -/
def afterName : List UInt8 → List UInt8 → Option (List UInt8)
  | line, [] => some line
  | [], _ :: _ => none
  | c :: line, n :: name => if lower c = lower n then afterName line name else none

/-- `hdr_is`: the name, spaces and a colon. -/
def hdrIs (line name : List UInt8) : Bool :=
  match afterName line name with
  | none => false
  | some rest => (rest.dropWhile (· = 0x20)).head? = some 0x3A

/-- `hdr_value`: what stands behind the colon and the blanks after it. -/
def hdrValue (line : List UInt8) : List UInt8 :=
  match cutAt 0x3A line with
  | none => []
  | some (_, value) => value.dropWhile fun c => c = 0x20 ∨ c = 0x09

/-- The first bytes of a `Transfer-Encoding` value that are looked at. -/
abbrev foldedMax : Nat := 47

/-- Whether `chunked` stands in the folded front of a value. -/
def namesChunked (value : List UInt8) : Bool :=
  ascii "chunked" <:+: (value.take foldedMax).map lower

namespace HttpParser

/-- `http_parser_init`, and `head_only` as the caller sets it. -/
def init (headOnly : Bool) : HttpParser where
  state := .status
  status := 0
  contentLength := -1
  bodySeen := 0
  chunked := false
  location := []
  line := []
  lineOver := false
  chunkLeft := 0
  sinkRc := 0
  headOnly

/-- `http_parser_done`. -/
def done (p : HttpParser) : Bool := p.state = .done

/-- `http_parser_failed`. -/
def failed (p : HttpParser) : Bool := p.state = .error

/-- Neither done nor failed. -/
def running (p : HttpParser) : Bool := !p.done && !p.failed

/-- The line as a C string. -/
def text (p : HttpParser) : List UInt8 := cstr p.line

/-- `feed_line`; the line is ready at a line end. -/
def feedLine (p : HttpParser) (c : UInt8) : Bool × HttpParser :=
  if c = 0x0A then
    (true, { p with
      line := if p.line.getLast? = some 0x0D then p.line.dropLast else p.line
      lineOver := false })
  else if p.line.length + 1 < httpLineMax then (false, { p with line := p.line ++ [c] })
  else (false, { p with lineOver := true })

/-- `line_reset`. -/
def lineReset (p : HttpParser) : HttpParser := { p with line := [] }

section Feed

variable {ω : Type} (cb : Callbacks ω)

/-- `emit`; whether the sink took the bytes. -/
def emit (d : List UInt8) (p : HttpParser) (w : ω) : Bool × HttpParser × ω :=
  if d = [] then (true, p, w)
  else
    match cb.sink with
    | none => (true, { p with bodySeen := p.bodySeen + d.length }, w)
    | some sink =>
      let (rc, w) := sink p d w
      if rc ≠ 0 then (false, { p with sinkRc := rc, state := .error }, w)
      else (true, { p with bodySeen := p.bodySeen + d.length }, w)

/-- The header callback with the line. -/
def callHeader (p : HttpParser) (w : ω) : ω :=
  match cb.header with
  | none => w
  | some header => header p.text w

/-- `parse_status_line`. -/
def parseStatusLine (p : HttpParser) (w : ω) : HttpParser × ω :=
  let fail := { p with state := .error }
  if p.text.take 5 ≠ ascii "HTTP/" then (fail, w)
  else
    match cutAt 0x20 p.text with
    | none => (fail, w)
    | some (_, behind) =>
      let sp := behind.dropWhile (· = 0x20)
      match sp.head? with
      | none => (fail, w)
      | some c =>
        if c < 0x30 ∨ 0x39 < c then (fail, w)
        else
          let status := (strtoint (2 ^ 31) 10 sp).getD 0
          if status < 100 ∨ 599 < status then ({ p with status, state := .error }, w)
          else ({ p with status, state := .headers }, callHeader cb { p with status } w)

/-- `headers_complete`. -/
def headersComplete (p : HttpParser) : HttpParser :=
  if p.headOnly then { p with state := .done }
  else if p.status = 204 ∨ p.status = 304 then { p with state := .done }
  else if p.chunked then { p with state := .chunkSize }
  else if p.contentLength = 0 then { p with state := .done }
  else if 0 < p.contentLength then { p with state := .bodyLen }
  else { p with state := .bodyEof }

/-- `parse_header_line`. -/
def parseHeaderLine (p : HttpParser) : HttpParser :=
  if hdrIs p.text (ascii "content-length") then
    match strtoint (2 ^ 63) 10 (hdrValue p.text) with
    | none => p
    | some n => if 0 ≤ n then { p with contentLength := n } else p
  else if hdrIs p.text (ascii "transfer-encoding") then
    if namesChunked (hdrValue p.text) then { p with chunked := true } else p
  else if hdrIs p.text (ascii "location") then
    if (hdrValue p.text).length < httpLocMax then { p with location := hdrValue p.text } else p
  else p

/-- What a line that is ready does, in the states that read lines. -/
def onLine (p : HttpParser) (w : ω) : HttpParser × ω :=
  match p.state with
  | .status => parseStatusLine cb p w
  | .headers =>
    if p.line = [] then (headersComplete p, w) else (parseHeaderLine p, callHeader cb p w)
  | .chunkSize =>
    match strtoint (2 ^ 63) 16 p.text with
    | none => ({ p with state := .error }, w)
    | some n =>
      if n < 0 then ({ p with state := .error }, w)
      else if n = 0 then ({ p with state := .trailer }, w)
      else ({ p with chunkLeft := n, state := .chunkData }, w)
  | .chunkCrlf =>
    if p.line ≠ [] then ({ p with state := .error }, w) else ({ p with state := .chunkSize }, w)
  | .trailer => if p.line = [] then ({ p with state := .done }, w) else (p, w)
  | _ => (p, w)

/-- How many of `avail` bytes are taken when `want` are still to come. -/
def takes (want : Int) (avail : Nat) : Nat := if want < avail then want.toNat else avail

/-- One turn of the loop of `http_parser_feed`: the parser, the world and the bytes left. -/
def feedOnce (p : HttpParser) (w : ω) (data : List UInt8) : HttpParser × ω × List UInt8 :=
  match p.state with
  | .bodyLen =>
    let n := takes (p.contentLength - p.bodySeen) data.length
    let (ok, p, w) := emit cb (data.take n) p w
    if !ok then (p, w, data)
    else
      (if p.contentLength ≤ p.bodySeen then { p with state := .done } else p, w, data.drop n)
  | .bodyEof =>
    let (ok, p, w) := emit cb data p w
    if !ok then (p, w, data) else (p, w, [])
  | .chunkData =>
    let n := takes p.chunkLeft data.length
    let (ok, p, w) := emit cb (data.take n) p w
    if !ok then (p, w, data)
    else
      let p := { p with chunkLeft := p.chunkLeft - n }
      (if p.chunkLeft = 0 then lineReset { p with state := .chunkCrlf } else p, w, data.drop n)
  | _ =>
    match data with
    | [] => (p, w, [])
    | c :: rest =>
      let (ready, p) := feedLine p c
      if ready then
        let (p, w) := onLine cb p w
        (lineReset p, w, rest)
      else (p, w, rest)

/-- The loop of `http_parser_feed`. -/
def feedLoop : Nat → HttpParser → ω → List UInt8 → HttpParser × ω × List UInt8
  | 0, p, w, data => (p, w, data)
  | fuel + 1, p, w, data =>
    if data = [] ∨ !p.running then (p, w, data)
    else
      let (p, w, rest) := feedOnce cb p w data
      feedLoop fuel p w rest

/-- `http_parser_feed`: every turn takes a byte or ends the loop, so one turn more than there are
bytes is enough. -/
def httpParserFeed (p : HttpParser) (w : ω) (data : List UInt8) : HttpParser × ω × List UInt8 :=
  feedLoop cb (data.length + 1) p w data

end Feed

/-- `http_parser_eof`. -/
def httpParserEof (p : HttpParser) : HttpParser :=
  if p.state = .bodyEof then { p with state := .done }
  else if p.running then { p with state := .error }
  else p

end HttpParser

end RPCortex.Http
