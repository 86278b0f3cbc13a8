import RPCortex.Web.Request
import RPCortex.Web.Split

/-! `httpfetch.cpp`: driving a request to completion over a transport.  The transport, the sink and
the caller's callbacks are functions on one state, of any type; what `http_fetch` does with the
transport and the sink is noted in a trace. -/

namespace RPCortex.Http

open Lib

/-- `RECV_CHUNK`. -/
abbrev recvChunk : Nat := 512

/-- `DEFAULT_REDIRECTS`. -/
abbrev defaultRedirects : UInt32 := 5

/-- What one `recv` reads: the bytes, none for a clean close, at most a buffer. -/
abbrev Received : Type := { d : List UInt8 // d.length ≤ recvChunk }

/-- `HttpTransport`: an open and a send that return 0 succeeded, and a receive that returns
nothing failed. -/
structure HttpTransport (σ : Type) where
  openTo : List UInt8 → Nat → Bool → σ → Int × σ
  send : List UInt8 → σ → Int × σ
  recv : σ → Option Received × σ
  close : σ → σ

/-- What is noted of a run. -/
inductive Event
  | openFailed
  | opened
  | sent
  | recvFailed
  | received (d : List UInt8)
  | closed
  | sunk (d : List UInt8)
  deriving DecidableEq

/-- The state of the world outside, with what was done to it. -/
structure World (σ : Type) where
  env : σ
  trace : List Event

/-- `FetchError`. -/
inductive FetchError
  | ok
  | url
  | connect
  | send
  | recv
  | protocol
  | status
  | redirect
  | tooBig
  | encoding
  | sink
  | aborted
  deriving DecidableEq

/-- `FetchResult`. -/
structure FetchResult where
  error : FetchError
  status : Int
  bytes : UInt64
  redirects : UInt32
  detail : List UInt8
  deriving DecidableEq

/-- The bytes of `detail`. -/
abbrev detailMax : Nat := 96

/-- `snprintf` into `detail`. -/
def detailOf (text : List UInt8) : List UInt8 := text.take (detailMax - 1)

/-- `SinkGuard`, without the sink and the progress callback; the parser is passed to the sink. -/
structure SinkGuard where
  limit : UInt64
  seen : UInt64
  total : UInt64
  overLimit : Bool
  sinkRefused : Bool
  follow : Bool
  deriving DecidableEq

/-- Whether a body with this status is discarded. -/
def SinkGuard.discards (g : SinkGuard) (status : Int) : Bool :=
  g.follow ∧ 300 ≤ status ∧ status < 400

variable {σ : Type}

namespace World

/-- `open`. -/
def openTo (t : HttpTransport σ) (u : HttpUrl) (w : World σ) : Bool × World σ :=
  let (rc, env) := t.openTo u.host u.port u.tls w.env
  if rc ≠ 0 then (false, ⟨env, w.trace ++ [.openFailed]⟩) else (true, ⟨env, w.trace ++ [.opened]⟩)

/-- `send`. -/
def send (t : HttpTransport σ) (d : List UInt8) (w : World σ) : Bool × World σ :=
  let (rc, env) := t.send d w.env
  (rc = 0, ⟨env, w.trace ++ [.sent]⟩)

/-- `recv`. -/
def recv (t : HttpTransport σ) (w : World σ) : Option Received × World σ :=
  match t.recv w.env with
  | (none, env) => (none, ⟨env, w.trace ++ [.recvFailed]⟩)
  | (some d, env) => (some d, ⟨env, w.trace ++ [.received d.val]⟩)

/-- `close`. -/
def close (t : HttpTransport σ) (w : World σ) : World σ := ⟨t.close w.env, w.trace ++ [.closed]⟩

/-- The caller's sink. -/
def sink (inner : List UInt8 → σ → Int × σ) (d : List UInt8) (w : World σ) : Int × World σ :=
  let (rc, env) := inner d w.env
  (rc, ⟨env, w.trace ++ [.sunk d]⟩)

end World

section Fetch

variable (t : HttpTransport σ) (inner : Option (List UInt8 → σ → Int × σ)) (o : FetchOpts σ)

/-- What `guarded_sink` notes when the bytes are accepted. -/
def progressed (len : UInt64) (v : SinkGuard × World σ) : SinkGuard × World σ :=
  let seen := v.1.seen + len
  ({ v.1 with seen },
    match o.progress with
    | none => v.2
    | some progress => { v.2 with env := progress seen v.1.total v.2.env })

/-- `guarded_sink`. -/
def guardedSink (p : HttpParser) (d : List UInt8) (v : SinkGuard × World σ) :
    Int × SinkGuard × World σ :=
  let len := UInt64.ofNat d.length
  if v.1.discards p.status then (0, v)
  else if v.1.limit ≠ 0 ∧ v.1.limit < v.1.seen + len then (-1, { v.1 with overLimit := true }, v.2)
  else
    match inner with
    | none => (0, progressed o len v)
    | some sink =>
      let (rc, w) := v.2.sink sink d
      if rc ≠ 0 then (rc, { v.1 with sinkRefused := true }, w)
      else (0, progressed o len (v.1, w))

/-- The callbacks of the parser. -/
def guarded : Callbacks (SinkGuard × World σ) where
  sink := some (guardedSink inner o)
  header := o.onHeader.map fun onHeader line v => (v.1, { v.2 with env := onHeader line v.2.env })

/-- `poll`, when there is one. -/
def pollOf (w : World σ) : Int × World σ :=
  match o.poll with
  | none => (0, w)
  | some poll =>
    let (rc, env) := poll w.env
    (rc, { w with env })

/-- The total for the progress callback, once the length is known. -/
def SinkGuard.withTotal (g : SinkGuard) (p : HttpParser) : SinkGuard :=
  if g.total = 0 ∧ 0 < p.contentLength then { g with total := UInt64.ofNat p.contentLength.toNat }
  else g

/-- The receive loop of `one_hop`; `none` when it still goes on after that many turns. -/
def receiveLoop : Nat → HttpParser → SinkGuard → World σ →
    Option (FetchError × HttpParser × SinkGuard × World σ)
  | 0, _, _, _ => none
  | fuel + 1, p, g, w =>
    if !p.running then some (.ok, p, g, w)
    else
      let (rc, w) := pollOf o w
      if rc ≠ 0 then some (.aborted, p, g, w)
      else
        match w.recv t with
        | (none, w) => some (.recv, p, g, w)
        | (some d, w) =>
          if d.val = [] then some (.ok, p.httpParserEof, g, w)
          else
            let (p', v, rest) := HttpParser.httpParserFeed (guarded inner o) p (g.withTotal p, w) d.val
            if rest ≠ [] ∧ !p'.done then some (.ok, p', v)
            else receiveLoop fuel p' v.1 v.2

/-- The size of the request buffer. -/
abbrev requestMax : Nat := httpPathMax + httpHostMax + httpExtraMax + 224

/-- What `one_hop` returns, with what it leaves in its arguments. -/
abbrev Hop (σ : Type) : Type := FetchError × HttpParser × SinkGuard × FetchResult × World σ

/-- The end of `one_hop`, behind its loop. -/
def hopEnd (err : FetchError) (p : HttpParser) (g : SinkGuard) (res : FetchResult) (w : World σ) :
    Hop σ :=
  let w := w.close t
  if err ≠ .ok then (err, p, g, res, w)
  else if g.overLimit then (.tooBig, p, g, res, w)
  else if g.sinkRefused then (.sink, p, g, res, w)
  else if p.failed then
    (.protocol, p, g, { res with
      detail := detailOf (ascii "truncated after " ++ decimal g.seen.toNat ++ ascii " bytes") }, w)
  else (.ok, p, g, res, w)

/-- The body of the request is sent, when there is one. -/
def sendBody (w : World σ) : Bool × World σ :=
  match o.body with
  | none => (true, w)
  | some body => if o.bodyLen = 0 then (true, w) else w.send t (body.take o.bodyLen.toNat)

/-- `one_hop`; `p` is the parser as it is on the stack, before it is initialised. -/
def oneHop (fuel : Nat) (u : HttpUrl) (g : SinkGuard) (p : HttpParser) (res : FetchResult)
    (w : World σ) : Option (Hop σ) :=
  let (connected, w) := w.openTo t u
  if !connected then
    some (.connect, p, g, { res with
      detail := detailOf (u.host ++ ascii ":" ++ decimal u.port) }, w)
  else
    match httpBuildRequestEx requestMax u o with
    | none => some (.url, p, g, res, w.close t)
    | some req =>
      let (sent, w) := w.send t req
      if !sent then some (.send, p, g, res, w.close t)
      else
        let (sent, w) := sendBody t o w
        if !sent then some (.send, p, g, res, w.close t)
        else
          match receiveLoop t inner o fuel (HttpParser.init (methodIs o.method (ascii "HEAD"))) g w
          with
          | none => none
          | some (err, p, g, w) => some (hopEnd t err p g res w)

/-- How many redirects are followed. -/
def FetchOpts.redirects (o : FetchOpts σ) : UInt32 :=
  if o.maxRedirects = 0 then defaultRedirects else o.maxRedirects

/-- The loop of `http_fetch`, whose counter wraps around; `none` when it still goes on after that
many turns, in it or in the loop of a hop. -/
def fetchLoop (raw : HttpParser) (turns : Nat) : Nat → UInt32 → HttpUrl → SinkGuard → FetchResult →
    World σ → Option (Bool × FetchResult × World σ)
  | 0, _, _, _, _, _ => none
  | fuel + 1, hop, u, g, res, w =>
    if o.redirects < hop then
      some (false, { res with error := .redirect, redirects := hop - 1 }, w)
    else
      match oneHop t inner o turns u g raw res w with
      | none => none
      | some (err, p, g, res, w) =>
        let res := { res with status := p.status, bytes := g.seen, redirects := hop }
        if err ≠ .ok then some (false, { res with error := err }, w)
        else if g.follow ∧ httpIsRedirect p then
          match httpResolveRedirect u p.location with
          | none =>
            some (false, { res with
              error := .redirect, detail := detailOf (p.location.take 80) }, w)
          | some next => fetchLoop raw turns fuel (hop + 1) next { g with seen := 0, total := 0 } res w
        else if p.status < 200 ∨ 299 < p.status then
          some (false, { res with
            error := .status
            detail := detailOf (ascii "HTTP " ++ ascii (toString p.status)) }, w)
        else some (true, { res with error := .ok, bytes := g.seen }, w)

/-- `http_fetch`, for a start with an empty trace; `opts` may be null. -/
def httpFetch (opts : Option (FetchOpts σ)) (raw : HttpParser) (fuel : Nat) (url : List UInt8)
    (env : σ) : Option (Bool × FetchResult × World σ) :=
  let o := opts.getD {}
  let res : FetchResult := ⟨.ok, 0, 0, 0, []⟩
  match httpParseUrl url with
  | none => some (false, { res with error := .url, detail := detailOf (url.take 80) }, ⟨env, []⟩)
  | some u =>
    let g : SinkGuard :=
      { limit := o.maxBytes
        seen := 0
        total := 0
        overLimit := false
        sinkRefused := false
        follow := methodIs o.method (ascii "GET") ∧ o.bodyLen = 0 }
    fetchLoop t inner o raw fuel fuel 0 u g res ⟨env, []⟩

end Fetch

end RPCortex.Http
