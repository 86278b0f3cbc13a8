import RPCortex.Web.Fetch
import RPCortex.Web.Framing
import RPCortex.Web.Tracks

/-! What `http_fetch` does with its connections and what its sink receives, whatever the transport
and the callbacks do. -/

namespace RPCortex.Http

open Lib HttpParser

/-! ### Traces -/

/-- Whether a connection is open behind an event, when the event was in order: a connection is
opened when none is open, and used and closed when it is open. -/
def connection : Option Bool → Event → Option Bool
  | some false, .openFailed => some false
  | some false, .opened => some true
  | some true, .closed => some false
  | some true, .sent => some true
  | some true, .recvFailed => some true
  | some true, .received _ => some true
  | some true, .sunk _ => some true
  | _, _ => none

/-- Whether a connection is open behind a trace; nothing when something was out of order. -/
def connected (trace : List Event) : Option Bool := trace.foldl connection (some false)

/-- Every connection that was opened was closed, once, and was not used after that. -/
def AllClosed (trace : List Event) : Prop := connected trace = some false

/-- How many connections were opened. -/
def opens (trace : List Event) : Nat := trace.count .opened

/-- The bytes of an event that the sink received. -/
def sunkBytes : Event → List UInt8
  | .sunk d => d
  | _ => []

/-- What the sink received. -/
def sunk (trace : List Event) : List UInt8 := trace.flatMap sunkBytes

/-- The chunks of the last connection, behind an event. -/
def chunksAfter (chunks : List (List UInt8)) : Event → List (List UInt8)
  | .opened => []
  | .received d => chunks ++ [d]
  | _ => chunks

/-- The chunks that were received on the last connection. -/
def lastChunks (trace : List Event) : List (List UInt8) := trace.foldl chunksAfter []

section Trace

variable (trace : List Event) (e : Event)

@[simp] theorem connected_snoc : connected (trace ++ [e]) = connection (connected trace) e := by
  simp [connected]

@[simp] theorem opens_snoc : opens (trace ++ [e]) = opens trace + if e = .opened then 1 else 0 := by
  rw [opens, List.count_append, List.count_singleton]
  by_cases h : e = .opened <;> simp [h, opens]

@[simp] theorem sunk_snoc : sunk (trace ++ [e]) = sunk trace ++ sunkBytes e := by
  simp [sunk]

@[simp] theorem lastChunks_snoc :
    lastChunks (trace ++ [e]) = chunksAfter (lastChunks trace) e := by
  simp [lastChunks]

end Trace

/-! ### What a fetch is to do -/

/-- The parser behind the chunks of a connection; an empty chunk is its end. -/
def parserAt (headOnly : Bool) (chunks : List (List UInt8)) : HttpParser :=
  if chunks.getLast? = some [] then (feedAll headOnly chunks).1.httpParserEof
  else (feedAll headOnly chunks).1

variable {σ : Type}

/-- Whether the request is for the header only. -/
def FetchOpts.headOnly (o : FetchOpts σ) : Bool := methodIs o.method (ascii "HEAD")

/-- Whether redirects are followed. -/
def FetchOpts.follows (o : FetchOpts σ) : Bool := methodIs o.method (ascii "GET") ∧ o.bodyLen = 0

/-- The counter of the bytes does not wrap around: the limit is not too near to its end, or there
are not that many bytes. -/
def Counted (o : FetchOpts σ) (trace : List Event) : Prop :=
  o.maxBytes.toNat + recvChunk < 2 ^ 64 ∨ (sunk trace).length < 2 ^ 64

/-- What has happened when a fetch returned true: the last connection brought a whole response with
a status of success, and the sink, when there is one, received its body and nothing else. -/
structure Fetched (inner : Option (List UInt8 → σ → Int × σ)) (o : FetchOpts σ)
    (trace : List Event) : Prop where
  whole : (parserAt o.headOnly (lastChunks trace)).done = true
  success : 200 ≤ (parserAt o.headOnly (lastChunks trace)).status ∧
    (parserAt o.headOnly (lastChunks trace)).status ≤ 299
  body : inner.isSome = true → sunk trace = (feedAll o.headOnly (lastChunks trace)).2.body
  -- the body as it is meant, when the bytes are those of a well-formed response
  meant : inner.isSome = true → ∀ r : Response, o.headOnly = false →
    (lastChunks trace).flatten = r.wire → r.Visible → sunk trace = r.body.decoded
  limited : o.maxBytes ≠ 0 → Counted o trace → (sunk trace).length ≤ o.maxBytes.toNat

section Fetch

variable {t : HttpTransport σ} {inner : Option (List UInt8 → σ → Int × σ)} {o : FetchOpts σ}
  {n : Nat} {chunks : List (List UInt8)} {p : HttpParser} {v : SinkGuard × World σ} {log : Log}
  {g : SinkGuard} {w : World σ}

/-! ### The sink -/

/-- The guard and the trace behind the `chunks` of connection number `n`, where callbacks that accept
everything would have `log`. -/
structure Follows (inner : Option (List UInt8 → σ → Int × σ)) (o : FetchOpts σ) (n : Nat)
    (chunks : List (List UInt8)) (p : HttpParser) (v : SinkGuard × World σ) (log : Log) : Prop where
  isOpen : connected v.2.trace = some true
  opened : opens v.2.trace = n
  received : lastChunks v.2.trace = chunks
  limit : v.1.limit = o.maxBytes
  follow : v.1.follow = o.follows
  within : v.1.overLimit = false
  accepted : v.1.sinkRefused = false
  early : p.state = .status → log.body = []
  body : sunk v.2.trace = if inner.isNone ∨ v.1.discards p.status = true then [] else log.body
  seen : inner.isSome = true → o.maxBytes ≠ 0 → Counted o v.2.trace →
    (sunk v.2.trace).length = v.1.seen.toNat ∧ v.1.seen.toNat ≤ o.maxBytes.toNat

/-- The guard and the trace when the sink has refused, or the limit was reached. -/
structure Refused (n : Nat) (v : SinkGuard × World σ) : Prop where
  isOpen : connected v.2.trace = some true
  opened : opens v.2.trace = n
  refused : v.1.overLimit = true ∨ v.1.sinkRefused = true

@[simp] theorem progressed_trace (len : UInt64) (v : SinkGuard × World σ) :
    (progressed o len v).2.trace = v.2.trace := by
  unfold progressed
  simp only
  split <;> rfl

theorem toNat_seen {seen : UInt64} {len : Nat} (room : seen.toNat + len < 2 ^ 64) :
    (seen + UInt64.ofNat len).toNat = seen.toNat + len := by
  rw [UInt64.toNat_add, UInt64.toNat_ofNat', Nat.mod_eq_of_lt (by omega : len < 2 ^ 64)]
  exact Nat.mod_eq_of_lt room

/-- Only the connection, the trace, the limits of the guard and the body count. -/
theorem Follows.same {g' : SinkGuard} {w' : World σ} {log' : Log}
    (h : Follows inner o n chunks p (g, w) log) (guard : ∃ total, g' = { g with total })
    (trace : w'.trace = w.trace) (body : log'.body = log.body) :
    Follows inner o n chunks p (g', w') log' := by
  obtain ⟨total, rfl⟩ := guard
  exact {
    isOpen := trace ▸ h.isOpen
    opened := trace ▸ h.opened
    received := trace ▸ h.received
    limit := h.limit
    follow := h.follow
    within := h.within
    accepted := h.accepted
    early := fun hs => body.trans (h.early hs)
    body := by
      rw [body]
      exact trace ▸ h.body
    seen := trace ▸ h.seen }

/-- Bytes that the guard has accepted. -/
theorem follows_accepted {d : List UInt8} (h : Follows inner o n chunks p v log)
    (notStatus : p.state ≠ .status) (fits : d.length ≤ recvChunk)
    (passes : ¬v.1.discards p.status = true)
    (under : ¬(v.1.limit ≠ 0 ∧ v.1.limit < v.1.seen + UInt64.ofNat d.length)) {w : World σ}
    (isOpen : connected w.trace = some true) (opened : opens w.trace = n)
    (received : lastChunks w.trace = chunks)
    (bytes : sunk w.trace = sunk v.2.trace ++ if inner.isNone then [] else d) :
    Follows inner o n chunks p (progressed o (UInt64.ofNat d.length) (v.1, w))
      { log with body := log.body ++ d } where
  isOpen := by rw [progressed_trace]; exact isOpen
  opened := by rw [progressed_trace]; exact opened
  received := by rw [progressed_trace]; exact received
  limit := h.limit
  follow := h.follow
  within := h.within
  accepted := h.accepted
  early hs := absurd hs notStatus
  body := by
    have before := h.body
    rw [progressed_trace]
    change sunk w.trace =
      if inner.isNone = true ∨ v.1.discards p.status = true then [] else log.body ++ d
    rw [bytes, before]
    cases inner.isNone <;> simp [passes]
  seen some limited counted := by
    rw [progressed_trace] at counted ⊢
    have counted : o.maxBytes.toNat + recvChunk < 2 ^ 64 ∨ (sunk w.trace).length < 2 ^ 64 := counted
    have notNone : inner.isNone = false := by
      rw [← Option.not_isSome, some]
      rfl
    have size : (sunk w.trace).length = (sunk v.2.trace).length + d.length := by
      rw [bytes, notNone, List.length_append]
      rfl
    have before : Counted o v.2.trace := by
      rcases counted with room | few
      · exact .inl room
      · exact .inr (by omega)
    obtain ⟨same, within⟩ := h.seen some limited before
    have room : v.1.seen.toNat + d.length < 2 ^ 64 := by
      rcases counted with room | few
      · have chunk : recvChunk = 512 := rfl
        omega
      · omega
    have sum := toNat_seen room
    have low : ¬o.maxBytes < v.1.seen + UInt64.ofNat d.length := by
      rw [h.limit] at under
      exact fun above => under ⟨limited, above⟩
    rw [UInt64.lt_iff_toNat_lt, sum] at low
    change (sunk w.trace).length = (v.1.seen + UInt64.ofNat d.length).toNat ∧
      (v.1.seen + UInt64.ofNat d.length).toNat ≤ o.maxBytes.toNat
    omega

/-- The guarded sink follows, or it has refused. -/
theorem tracks_guarded :
    Tracks (guarded inner o) recvChunk (Follows inner o n chunks) (Refused n) where
  sink := by
    refine ⟨guardedSink inner o, rfl, ?_⟩
    intro p v log d h reads fits
    have notStatus : p.state ≠ .status := by
      intro hs
      rw [hs] at reads
      exact absurd reads (by decide)
    unfold guardedSink
    by_cases discards : v.1.discards p.status = true
    · simp only [if_pos discards, if_true]
      exact { h with
        early := fun hs => absurd hs notStatus
        body := by rw [h.body, if_pos (.inr discards), if_pos (.inr discards)] }
    · simp only [if_neg discards]
      by_cases above : v.1.limit ≠ 0 ∧ v.1.limit < v.1.seen + UInt64.ofNat d.length
      · simp only [if_pos above]
        rw [if_neg (by decide)]
        exact ⟨h.isOpen, h.opened, .inl rfl⟩
      · simp only [if_neg above]
        cases hi : inner with
        | none =>
          subst hi
          simp only [if_true]
          exact follows_accepted h notStatus fits discards above h.isOpen h.opened h.received
            (by simp)
        | some sink =>
          subst hi
          have trace : (World.sink sink d v.2).2.trace = v.2.trace ++ [.sunk d] := rfl
          have isOpen : connected (World.sink sink d v.2).2.trace = some true := by
            rw [trace, connected_snoc, h.isOpen]
            rfl
          have opened : opens (World.sink sink d v.2).2.trace = n := by
            rw [trace, opens_snoc, h.opened]
            rfl
          by_cases refuses : (World.sink sink d v.2).1 ≠ 0
          · simp only [if_pos refuses]
            rw [if_neg refuses]
            exact ⟨isOpen, opened, .inr rfl⟩
          · simp only [if_neg refuses, if_true]
            refine follows_accepted h notStatus fits discards above isOpen opened ?_ ?_
            · rw [trace, lastChunks_snoc, h.received]
              rfl
            · rw [trace, sunk_snoc]
              rfl
  header := by
    intro p q v log h
    have same : ((callHeader (guarded inner o) q v).1 = v.1) ∧
        (callHeader (guarded inner o) q v).2.trace = v.2.trace := by
      unfold callHeader guarded
      cases o.onHeader <;> exact ⟨rfl, rfl⟩
    obtain ⟨guard, trace⟩ := same
    exact h.same ⟨v.1.total, guard⟩ trace rfl
  moves := by
    intro p p' v log h moved
    rcases moved with early | ⟨status, state⟩
    · have none := h.early early
      have body := h.body
      rw [none, ite_self] at body
      exact { h with
        early := fun _ => none
        body := by rw [body, none, ite_self] }
    · exact { h with
        early := fun hs => absurd hs state
        body := by rw [status]; exact h.body }

/-! ### A hop -/

/-- An event that uses the connection and passes nothing to the sink. -/
theorem Follows.event {e : Event} {w' : World σ} (h : Follows inner o n chunks p (g, w) log)
    (trace : w'.trace = w.trace ++ [e]) (uses : connection (some true) e = some true)
    (silent : sunkBytes e = []) : Follows inner o n (chunksAfter chunks e) p (g, w') log where
  isOpen := by
    have before : connected w.trace = some true := h.isOpen
    simp only [trace, connected_snoc, before, uses]
  opened := by
    have before : opens w.trace = n := h.opened
    have notOpened : e ≠ .opened := by
      rintro rfl
      cases uses
    simp [trace, before, notOpened]
  received := by
    have before : lastChunks w.trace = chunks := h.received
    simp only [trace, lastChunks_snoc, before]
  limit := h.limit
  follow := h.follow
  within := h.within
  accepted := h.accepted
  early := h.early
  body := by
    have same : sunk w'.trace = sunk w.trace := by simp [trace, silent]
    rw [same]
    exact h.body
  seen := by
    have same : sunk w'.trace = sunk w.trace := by simp [trace, silent]
    simp only [Counted, same]
    exact h.seen

/-- How a hop leaves the connection, which it has still to close; when nothing went wrong, the
response is whole and the guard has followed it. -/
structure HopDone (inner : Option (List UInt8 → σ → Int × σ)) (o : FetchOpts σ) (n : Nat)
    (err : FetchError) (p : HttpParser) (g : SinkGuard) (w : World σ) : Prop where
  isOpen : connected w.trace = some true
  opened : opens w.trace = n
  whole : err = .ok → g.overLimit = false → g.sinkRefused = false → p.failed = false →
    p.done = true ∧ p = parserAt o.headOnly (lastChunks w.trace) ∧
      Follows inner o n (lastChunks w.trace) p (g, w) (feedAll o.headOnly (lastChunks w.trace)).2

theorem Follows.hopDone {err : FetchError} (h : Follows inner o n chunks p (g, w) log)
    (whole : err = .ok → p.failed = false → p.done = true ∧ p = parserAt o.headOnly chunks ∧
      log = (feedAll o.headOnly chunks).2) : HopDone inner o n err p g w where
  isOpen := h.isOpen
  opened := h.opened
  whole ok _ _ failed := by
    obtain ⟨done, parser, logged⟩ := whole ok failed
    have received : lastChunks w.trace = chunks := h.received
    rw [received, ← logged]
    exact ⟨done, parser, h⟩

theorem Refused.hopDone {err : FetchError} (h : Refused n (g, w)) :
    HopDone inner o n err p g w where
  isOpen := h.isOpen
  opened := h.opened
  whole _ within accepted _ := by
    rcases h.refused with above | refused
    · exact absurd within (by simp only at above; simp [above])
    · exact absurd accepted (by simp only at refused; simp [refused])

theorem pollOf_trace (o : FetchOpts σ) (w : World σ) : (pollOf o w).2.trace = w.trace := by
  unfold pollOf
  split <;> rfl

theorem withTotal_eq (g : SinkGuard) (p : HttpParser) :
    ∃ total, g.withTotal p = { g with total } := by
  unfold SinkGuard.withTotal
  split
  · exact ⟨_, rfl⟩
  · exact ⟨_, rfl⟩

/-- Behind the end of the connection the parser is done or has failed. -/
theorem httpParserEof_running (p : HttpParser) : p.httpParserEof.running = false := by
  unfold httpParserEof
  split
  · rfl
  · split
    · rfl
    · rename_i stopped
      exact Bool.not_eq_true _ ▸ stopped

theorem done_of_stopped (stopped : p.running = false) (failed : p.failed = false) :
    p.done = true := by
  simpa [running, failed] using stopped

theorem feedAll_snoc (headOnly : Bool) (chunks : List (List UInt8)) (d : List UInt8) :
    feedAll headOnly (chunks ++ [d]) = feed (feedAll headOnly chunks) d := by
  simp [feedAll]

theorem expecting_feedAll (headOnly : Bool) (chunks : List (List UInt8)) :
    Expecting (feedAll headOnly chunks).1 := by
  rw [feedAll, foldl_feed (expecting_init headOnly)]
  exact expecting_foldl (expecting_init headOnly) _

theorem feed_nil (s : Recorded) : feed s [] = s := rfl

/-- The receive loop. -/
theorem receiveLoop_done {fuel : Nat} {err : FetchError} {p' : HttpParser} {g' : SinkGuard}
    {w' : World σ} (h : Follows inner o n chunks p (g, w) (feedAll o.headOnly chunks).2)
    (parser : p = (feedAll o.headOnly chunks).1) (nonempty : ∀ c ∈ chunks, c ≠ [])
    (run : receiveLoop t inner o fuel p g w = some (err, p', g', w')) :
    HopDone inner o n err p' g' w' := by
  induction fuel generalizing chunks p g w with
  | zero => cases run
  | succ fuel ih =>
    rw [receiveLoop] at run
    have notEnd : chunks.getLast? ≠ some [] := fun last =>
      nonempty [] (List.mem_of_getLast? last) rfl
    by_cases stopped : (!p.running) = true
    · rw [if_pos stopped] at run
      cases run
      refine h.hopDone fun _ failed => ⟨done_of_stopped (by simpa using stopped) failed, ?_, rfl⟩
      rw [parserAt, if_neg notEnd]
      exact parser
    · rw [if_neg stopped] at run
      have polled : Follows inner o n chunks p (g, (pollOf o w).2) (feedAll o.headOnly chunks).2 :=
        h.same ⟨g.total, rfl⟩ (pollOf_trace o w) rfl
      simp only at run
      by_cases abort : (pollOf o w).1 ≠ 0
      · rw [if_pos abort] at run
        cases run
        exact polled.hopDone nofun
      · rw [if_neg abort] at run
        cases got : t.recv (pollOf o w).2.env with
        | mk d env =>
          cases d with
          | none =>
            have received : World.recv t (pollOf o w).2 =
                (none, ⟨env, (pollOf o w).2.trace ++ [.recvFailed]⟩) := by
              rw [World.recv, got]
            rw [received] at run
            cases run
            refine ⟨?_, ?_, nofun⟩
            · have before : connected (pollOf o w).2.trace = some true := polled.isOpen
              simp only [connected_snoc, before]
              rfl
            · have before : opens (pollOf o w).2.trace = n := polled.opened
              simp [before]
          | some d =>
            have received : World.recv t (pollOf o w).2 =
                (some d, ⟨env, (pollOf o w).2.trace ++ [.received d.val]⟩) := by
              rw [World.recv, got]
            rw [received] at run
            have follows : Follows inner o n (chunks ++ [d.val]) p
                (g, ⟨env, (pollOf o w).2.trace ++ [.received d.val]⟩)
                (feedAll o.headOnly chunks).2 :=
                  polled.event (e := .received d.val) rfl rfl rfl
            simp only at run
            by_cases eof : d.val = []
            · rw [if_pos eof] at run
              cases run
              have moved := tracks_guarded.moves p p.httpParserEof _ _ follows (by
                by_cases early : p.state = .status
                · exact .inl early
                · refine .inr ?_
                  unfold httpParserEof
                  split
                  · exact ⟨rfl, nofun⟩
                  · split
                    · exact ⟨rfl, nofun⟩
                    · exact ⟨rfl, early⟩)
              refine moved.hopDone fun _ failed =>
                ⟨done_of_stopped (httpParserEof_running p) failed, ?_, ?_⟩
              · rw [eof, parserAt, if_pos (by simp), feedAll_snoc, feed_nil, parser]
              · rw [eof, feedAll_snoc, feed_nil]
            · rw [if_neg eof] at run
              generalize feeding : httpParserFeed (guarded inner o) p
                (g.withTotal p, ⟨env, (pollOf o w).2.trace ++ [.received d.val]⟩) d.val = a at run
              have outcome := feed_tracks tracks_guarded
                (follows.same (withTotal_eq g p) rfl rfl) d.property
              rw [feeding] at outcome
              have next : feedAll o.headOnly (chunks ++ [d.val]) =
                  ((httpParserFeed recording p (feedAll o.headOnly chunks).2 d.val).1,
                    (httpParserFeed recording p (feedAll o.headOnly chunks).2 d.val).2.1) := by
                rw [feedAll_snoc, parser]
                rfl
              have expecting : Expecting p := by
                rw [parser]
                exact expecting_feedAll o.headOnly chunks
              have leftOver := feed_rest (feedAll o.headOnly chunks).2 d.val expecting
              obtain ⟨p₁, ⟨g₁, w₁⟩, rest⟩ := a
              simp only at run
              rcases outcome with ⟨sameParser, sameRest, now⟩ | ⟨failed, refused⟩
              · simp only at sameParser sameRest now
                rw [← sameParser, ← sameRest] at leftOver
                by_cases stop : rest ≠ [] ∧ (!p₁.done) = true
                · rw [if_pos stop] at run
                  cases run
                  refine now.hopDone fun _ notFailed => ?_
                  have stopped := leftOver.resolve_left stop.1
                  have done := done_of_stopped stopped notFailed
                  rw [done] at stop
                  exact absurd stop.2 (by decide)
                · rw [if_neg stop] at run
                  have logged : (feedAll o.headOnly (chunks ++ [d.val])).2 =
                      (httpParserFeed recording p (feedAll o.headOnly chunks).2 d.val).2.1 := by
                    rw [next]
                  rw [← logged] at now
                  refine ih now (by rw [next]; exact sameParser) ?_ run
                  intro c hc
                  rcases List.mem_append.mp hc with hc | hc
                  · exact nonempty c hc
                  · rw [List.mem_singleton.mp hc]
                    exact eof
              · simp only at failed refused
                have stopped : (!p₁.running) = true := by
                  simp [running, HttpParser.failed, failed]
                by_cases stop : rest ≠ [] ∧ (!p₁.done) = true
                · rw [if_pos stop] at run
                  cases run
                  exact refused.hopDone
                · rw [if_neg stop] at run
                  cases fuel with
                  | zero => cases run
                  | succ fuel =>
                    rw [receiveLoop, if_pos stopped] at run
                    cases run
                    exact refused.hopDone

/-- Before a hop: no connection is open, and nothing was passed to the sink or counted. -/
structure Ready (o : FetchOpts σ) (g : SinkGuard) (w : World σ) : Prop where
  closed : AllClosed w.trace
  none : sunk w.trace = []
  limit : g.limit = o.maxBytes
  follow : g.follow = o.follows
  within : g.overLimit = false
  accepted : g.sinkRefused = false
  unseen : g.seen = 0

/-- A connection that was opened, before its first chunk. -/
theorem Ready.follows {w' : World σ} (ready : Ready o g w) (trace : w'.trace = w.trace ++ [.opened]) :
    Follows inner o (opens w.trace + 1) [] (init o.headOnly) (g, w') (feedAll o.headOnly []).2 where
  isOpen := by
    have before : connected w.trace = some false := ready.closed
    simp only [trace, connected_snoc, before]
    rfl
  opened := by simp [trace]
  received := by simp [trace, chunksAfter]
  limit := ready.limit
  follow := ready.follow
  within := ready.within
  accepted := ready.accepted
  early _ := rfl
  body := by
    have none : sunk w'.trace = [] := by simp [trace, sunkBytes, ready.none]
    have empty : (feedAll o.headOnly []).2.body = [] := rfl
    rw [none, empty, ite_self]
  seen _ _ _ := by
    have none : sunk w'.trace = [] := by simp [trace, sunkBytes, ready.none]
    have unseen : g.seen = 0 := ready.unseen
    simp [none, unseen]

/-- How a hop ends: the connection is closed again, and when nothing went wrong the response is whole
and what the sink received is its body, or nothing when the body is discarded. -/
structure HopEnded (inner : Option (List UInt8 → σ → Int × σ)) (o : FetchOpts σ) (n : Nat)
    (err : FetchError) (p : HttpParser) (g : SinkGuard) (w : World σ) : Prop where
  closed : AllClosed w.trace
  opened : opens w.trace ≤ n + 1
  whole : err = .ok → p.done = true ∧ p = parserAt o.headOnly (lastChunks w.trace) ∧
    g.limit = o.maxBytes ∧ g.follow = o.follows ∧ g.overLimit = false ∧ g.sinkRefused = false ∧
    (sunk w.trace = if inner.isNone ∨ g.discards p.status = true then []
      else (feedAll o.headOnly (lastChunks w.trace)).2.body) ∧
    (o.maxBytes ≠ 0 → Counted o w.trace → (sunk w.trace).length ≤ o.maxBytes.toNat)

theorem closed_close (t : HttpTransport σ) (h : connected w.trace = some true) :
    AllClosed (w.close t).trace := by
  rw [AllClosed, World.close, connected_snoc, h]
  rfl

@[simp] theorem opens_close (t : HttpTransport σ) (w : World σ) :
    opens (w.close t).trace = opens w.trace := by
  simp [World.close]

@[simp] theorem sunk_close (t : HttpTransport σ) (w : World σ) :
    sunk (w.close t).trace = sunk w.trace := by
  simp [World.close, sunkBytes]

@[simp] theorem lastChunks_close (t : HttpTransport σ) (w : World σ) :
    lastChunks (w.close t).trace = lastChunks w.trace := by
  simp [World.close, chunksAfter]

/-- An early exit of a hop, which closes the connection. -/
theorem Follows.exit {err : FetchError} {p' : HttpParser}
    (h : Follows inner o (n + 1) chunks p (g, w) log) (wrong : err ≠ .ok) :
    HopEnded inner o n err p' g (w.close t) where
  closed := closed_close t h.isOpen
  opened := by
    have opened : opens w.trace = n + 1 := h.opened
    rw [opens_close, opened]
  whole ok := absurd ok wrong

/-- The end of a hop behind its receive loop. -/
theorem HopDone.ended {err err' : FetchError} {p' : HttpParser} {g' : SinkGuard}
    {res res' : FetchResult} {w' : World σ} (h : HopDone inner o (n + 1) err p g w)
    (run : hopEnd t err p g res w = (err', p', g', res', w')) :
    HopEnded inner o n err' p' g' w' := by
  have closed := closed_close t h.isOpen
  have opened : opens (w.close t).trace ≤ n + 1 := by rw [opens_close, h.opened]
  unfold hopEnd at run
  simp only at run
  by_cases wrong : err ≠ .ok
  · rw [if_pos wrong] at run
    cases run
    exact ⟨closed, opened, fun ok => absurd ok wrong⟩
  · rw [if_neg wrong] at run
    by_cases above : g.overLimit = true
    · rw [if_pos above] at run
      cases run
      exact ⟨closed, opened, nofun⟩
    · rw [if_neg above] at run
      by_cases refused : g.sinkRefused = true
      · rw [if_pos refused] at run
        cases run
        exact ⟨closed, opened, nofun⟩
      · rw [if_neg refused] at run
        by_cases failed : p.failed = true
        · rw [if_pos failed] at run
          cases run
          exact ⟨closed, opened, nofun⟩
        · rw [if_neg failed] at run
          cases run
          refine ⟨closed, opened, fun _ => ?_⟩
          obtain ⟨done, parser, follows⟩ := h.whole (not_not.mp wrong)
            (Bool.not_eq_true _ ▸ above) (Bool.not_eq_true _ ▸ refused)
            (Bool.not_eq_true _ ▸ failed)
          simp only [lastChunks_close, Counted, sunk_close]
          refine ⟨done, parser, follows.limit, follows.follow, follows.within, follows.accepted,
            follows.body, fun limited counted => ?_⟩
          cases hi : inner.isSome with
          | true =>
            obtain ⟨same, within⟩ := follows.seen hi limited counted
            exact Nat.le_trans (Nat.le_of_eq same) within
          | false =>
            have body : sunk w.trace = [] := by
              rw [follows.body, if_pos (.inl (by simp [← Option.not_isSome, hi]))]
            rw [body]
            exact Nat.zero_le _

/-- One hop. -/
theorem oneHop_ended {fuel : Nat} {u : HttpUrl} {res res' : FetchResult} {err : FetchError}
    {p' : HttpParser} {g' : SinkGuard} {w' : World σ} (ready : Ready o g w)
    (run : oneHop t inner o fuel u g p res w = some (err, p', g', res', w')) :
    HopEnded inner o (opens w.trace) err p' g' w' := by
  unfold oneHop at run
  cases opening : t.openTo u.host u.port u.tls w.env with
  | mk rc env =>
    by_cases refused : rc ≠ 0
    · have opened : w.openTo t u = (false, ⟨env, w.trace ++ [.openFailed]⟩) := by
        rw [World.openTo, opening]
        exact if_pos refused
      rw [opened] at run
      cases run
      refine ⟨?_, ?_, nofun⟩
      · have before : connected w.trace = some false := ready.closed
        rw [AllClosed, connected_snoc, before]
        rfl
      · simp
    · have opened : w.openTo t u = (true, ⟨env, w.trace ++ [.opened]⟩) := by
        rw [World.openTo, opening]
        exact if_neg refused
      rw [opened] at run
      have follows : Follows inner o (opens w.trace + 1) [] (init o.headOnly)
          (g, ⟨env, w.trace ++ [.opened]⟩) (feedAll o.headOnly []).2 := ready.follows rfl
      simp only [Bool.not_true, Bool.false_eq_true, if_false] at run
      cases request : httpBuildRequestEx requestMax u o with
      | none =>
        rw [request] at run
        cases run
        exact follows.exit nofun
      | some req =>
        rw [request] at run
        simp only at run
        have first : Follows inner o (opens w.trace + 1) [] (init o.headOnly)
            (g, (World.send t req ⟨env, w.trace ++ [.opened]⟩).2) (feedAll o.headOnly []).2 :=
          follows.event (e := .sent) rfl rfl rfl
        by_cases failed : (!(World.send t req ⟨env, w.trace ++ [.opened]⟩).1) = true
        · rw [if_pos failed] at run
          cases run
          exact first.exit nofun
        · rw [if_neg failed] at run
          generalize (World.send t req ⟨env, w.trace ++ [.opened]⟩).2 = w₁ at first run
          have second : Follows inner o (opens w.trace + 1) [] (init o.headOnly)
              (g, (sendBody t o w₁).2) (feedAll o.headOnly []).2 := by
            unfold sendBody
            split
            · exact first
            · split
              · exact first
              · exact first.event (e := .sent) rfl rfl rfl
          generalize sendBody t o w₁ = sent at second run
          by_cases failed : (!sent.1) = true
          · rw [if_pos failed] at run
            cases run
            exact second.exit nofun
          · rw [if_neg failed] at run
            generalize receiving : receiveLoop t inner o fuel
              (init (methodIs o.method (ascii "HEAD"))) g sent.2 = result at run
            cases result with
            | none => cases run
            | some hop =>
              obtain ⟨err₁, p₁, g₁, w₂⟩ := hop
              have hopDone := receiveLoop_done second rfl nofun receiving
              simp only [Option.some.injEq] at run
              exact hopDone.ended run

end Fetch

end RPCortex.Http
