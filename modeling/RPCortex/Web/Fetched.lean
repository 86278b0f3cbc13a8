import RPCortex.Web.FetchSafe

/-! The redirect loop of `http_fetch`.  Between two hops no connection is open and the sink has
received nothing, since the body of a redirect that is followed is discarded. -/

namespace RPCortex.Http

open Lib HttpParser

section Fetch

variable {σ : Type} {t : HttpTransport σ} {inner : Option (List UInt8 → σ → Int × σ)}
  {o : FetchOpts σ} {n : Nat} {p : HttpParser} {g : SinkGuard} {w : World σ}

/-- The body of a redirect is discarded when redirects are followed. -/
theorem discards_of_redirect (follow : g.follow = true) (redirect : httpIsRedirect p = true) :
    g.discards p.status = true := by
  have status := (of_decide_eq_true redirect).1
  refine decide_eq_true ⟨follow, ?_⟩
  omega

/-- A hop that was redirected leaves everything as it was before it. -/
theorem HopEnded.ready (h : HopEnded inner o n .ok p g w) (follow : g.follow = true)
    (redirect : httpIsRedirect p = true) : Ready o { g with seen := 0, total := 0 } w := by
  obtain ⟨-, -, limit, follows, within, accepted, body, -⟩ := h.whole rfl
  rw [if_pos (.inr (discards_of_redirect follow redirect))] at body
  exact ⟨h.closed, body, limit, follows, within, accepted, rfl⟩

/-- The last hop of a fetch that succeeded. -/
theorem HopEnded.fetched (h : HopEnded inner o n .ok p g w)
    (success : ¬(p.status < 200 ∨ 299 < p.status)) : Fetched inner o w.trace := by
  obtain ⟨done, parser, -, -, -, -, body, limited⟩ := h.whole rfl
  have kept : g.discards p.status = false := by
    refine decide_eq_false ?_
    omega
  have received (some : inner.isSome = true) :
      sunk w.trace = (feedAll o.headOnly (lastChunks w.trace)).2.body := by
    have notNone : inner.isNone = false := by
      rw [← Option.not_isSome, some]
      rfl
    rw [body, if_neg (by simp [notNone, kept])]
  rw [parser] at done success
  refine ⟨done, by omega, received, ?_, limited⟩
  intro some r get wire visible
  have delivered := (delivered_of_visible r visible).whole _ wire
  rw [received some, get]
  exact delivered.1

/-- The loop of `http_fetch`, in which the count of the hops does not wrap around unless the number
of redirects that are followed is the greatest there is. -/
theorem fetchLoop_fetched {raw : HttpParser} {turns fuel : Nat} {hop : UInt32} {u : HttpUrl}
    {res res' : FetchResult} {ok : Bool} {w' : World σ} (ready : Ready o g w)
    (count : o.redirects.toNat + 1 < 2 ^ 32 → opens w.trace ≤ hop.toNat)
    (run : fetchLoop t inner o raw turns fuel hop u g res w = some (ok, res', w')) :
    AllClosed w'.trace ∧
      (o.redirects.toNat + 1 < 2 ^ 32 → opens w.trace ≤ o.redirects.toNat + 1 →
        opens w'.trace ≤ o.redirects.toNat + 1) ∧
      (ok = true → Fetched inner o w'.trace) := by
  induction fuel generalizing hop u g res w with
  | zero => cases run
  | succ fuel ih =>
    rw [fetchLoop] at run
    by_cases many : o.redirects < hop
    · rw [if_pos many] at run
      cases run
      exact ⟨ready.closed, fun _ few => few, nofun⟩
    · rw [if_neg many] at run
      have low : hop.toNat ≤ o.redirects.toNat := by
        rw [← UInt32.le_iff_toNat_le]
        exact UInt32.not_lt.mp many
      cases hopping : oneHop t inner o turns u g raw res w with
      | none =>
        rw [hopping] at run
        cases run
      | some result =>
        obtain ⟨err, p, g₁, res₁, w₁⟩ := result
        rw [hopping] at run
        simp only at run
        have ended := oneHop_ended ready hopping
        have opened : o.redirects.toNat + 1 < 2 ^ 32 → opens w₁.trace ≤ o.redirects.toNat + 1 := by
          intro room
          have := ended.opened
          have := count room
          omega
        by_cases wrong : err ≠ .ok
        · rw [if_pos wrong] at run
          cases run
          exact ⟨ended.closed, fun room _ => opened room, nofun⟩
        · rw [if_neg wrong] at run
          obtain rfl := not_not.mp wrong
          by_cases redirected : g₁.follow = true ∧ httpIsRedirect p = true
          · rw [if_pos redirected] at run
            cases resolving : httpResolveRedirect u p.location with
            | none =>
              rw [resolving] at run
              cases run
              exact ⟨ended.closed, fun room _ => opened room, nofun⟩
            | some next =>
              rw [resolving] at run
              simp only at run
              have more : o.redirects.toNat + 1 < 2 ^ 32 → opens w₁.trace ≤ (hop + 1).toNat := by
                intro room
                have sum : (hop + 1).toNat = hop.toNat + 1 := by
                  rw [UInt32.toNat_add]
                  exact Nat.mod_eq_of_lt (by simp; omega)
                have := ended.opened
                have := count room
                omega
              obtain ⟨closed, bound, fetched⟩ :=
                ih (ended.ready redirected.1 redirected.2) more run
              exact ⟨closed, fun room _ => bound room (opened room), fetched⟩
          · rw [if_neg redirected] at run
            by_cases refused : p.status < 200 ∨ 299 < p.status
            · rw [if_pos refused] at run
              cases run
              exact ⟨ended.closed, fun room _ => opened room, nofun⟩
            · rw [if_neg refused] at run
              cases run
              exact ⟨ended.closed, fun room _ => opened room, fun _ => ended.fetched refused⟩

/-- Whatever the transport and the callbacks do: when `http_fetch` returns, every connection is
closed, there were not more than the redirects that are followed and one, and when it returned true
the sink received the body of the last response. -/
theorem httpFetch_fetched (t : HttpTransport σ) (inner : Option (List UInt8 → σ → Int × σ))
    (opts : Option (FetchOpts σ)) (raw : HttpParser) (fuel : Nat) (url : List UInt8) (env : σ)
    {ok : Bool} {res : FetchResult} {w : World σ}
    (run : httpFetch t inner opts raw fuel url env = some (ok, res, w)) :
    AllClosed w.trace ∧
      ((opts.getD {}).redirects.toNat + 1 < 2 ^ 32 →
        opens w.trace ≤ (opts.getD {}).redirects.toNat + 1) ∧
      (ok = true → Fetched inner (opts.getD {}) w.trace) := by
  unfold httpFetch at run
  simp only at run
  cases parsing : httpParseUrl url with
  | none =>
    rw [parsing] at run
    cases run
    exact ⟨rfl, fun _ => Nat.zero_le _, nofun⟩
  | some u =>
    rw [parsing] at run
    simp only at run
    have ready : Ready (opts.getD {})
        { limit := (opts.getD {}).maxBytes
          seen := 0
          total := 0
          overLimit := false
          sinkRefused := false
          follow := methodIs (opts.getD {}).method (ascii "GET") ∧ (opts.getD {}).bodyLen = 0 }
        ⟨env, []⟩ := ⟨rfl, rfl, rfl, rfl, rfl, rfl, rfl⟩
    obtain ⟨closed, bound, fetched⟩ := fetchLoop_fetched ready (fun _ => Nat.zero_le _) run
    exact ⟨closed, fun room => bound room (Nat.zero_le _), fetched⟩

end Fetch

/-- A transport whose connections bring one chunk each, from a list. -/
def scripted : HttpTransport (List Received) where
  openTo _ _ _ env := (0, env)
  send _ env := (0, env)
  recv env :=
    match env with
    | [] => (none, [])
    | d :: env => (some d, env)
  close env := env

/-- A sink that accepts everything. -/
def accepting : List UInt8 → List Received → Int × List Received := fun _ env => (0, env)

/-- A redirect without a body. -/
def movedReply : Received :=
  ⟨ascii "HTTP/1.1 301 Moved\nLocation: /b\nContent-Length: 0\n\n", by decide +kernel⟩

/-- A response with a body of two bytes. -/
def okReply : Received := ⟨ascii "HTTP/1.1 200 OK\nContent-Length: 2\n\nhi", by decide +kernel⟩

/-- A fetch of two hops, with the options as they are by default. -/
def twoHops : Option (Bool × FetchResult × World (List Received)) :=
  httpFetch scripted (some accepting) (some {}) (init false) 3 (ascii "http://a/")
    [movedReply, okReply]

theorem twoHops_returns : ∃ res w, twoHops = some (true, res, w) ∧ opens w.trace = 2 := by
  have run : (twoHops.map fun r => (r.1, opens r.2.2.trace)) = some (true, 2) := by
    decide +kernel
  obtain ⟨⟨ok, res, w⟩, eq, parts⟩ := Option.map_eq_some_iff.mp run
  simp only [Prod.mk.injEq] at parts
  obtain ⟨rfl, opened⟩ := parts
  exact ⟨res, w, eq, opened⟩

theorem httpFetch_fetched_twoHops : ∃ res w, twoHops = some (true, res, w) ∧
    AllClosed w.trace ∧ opens w.trace ≤ 6 ∧ Fetched (some accepting) {} w.trace := by
  obtain ⟨res, w, run, -⟩ := twoHops_returns
  obtain ⟨closed, bound, fetched⟩ := httpFetch_fetched scripted (some accepting) (some {})
    (init false) 3 (ascii "http://a/") [movedReply, okReply] run
  exact ⟨res, w, run, closed, bound (by decide), fetched rfl⟩

/-- A limit of no redirects stands for the default, so there may be more connections than one. -/
theorem not_all_fetches_limited : ¬∀ (σ : Type) (t : HttpTransport σ)
    (inner : Option (List UInt8 → σ → Int × σ)) (o : FetchOpts σ) (raw : HttpParser) (fuel : Nat)
    (url : List UInt8) (env : σ) (ok : Bool) (res : FetchResult) (w : World σ),
    httpFetch t inner (some o) raw fuel url env = some (ok, res, w) →
      opens w.trace ≤ o.maxRedirects.toNat + 1 := by
  intro all
  obtain ⟨res, w, run, opened⟩ := twoHops_returns
  have few := all (List Received) scripted (some accepting) {} (init false) 3 (ascii "http://a/")
    [movedReply, okReply] true res w run
  rw [opened] at few
  exact absurd few (by decide)

/-! ### What the parser was before -/

section Independent

variable {σ : Type} (t : HttpTransport σ) (inner : Option (List UInt8 → σ → Int × σ)) (o : FetchOpts σ)

/-- The hop comes to its parser: it connects, its request fits, and the request and the body are sent. -/
def Starts (u : HttpUrl) (w : World σ) : Prop :=
  (w.openTo t u).1 = true ∧ ∃ req, httpBuildRequestEx requestMax u o = some req ∧
    ((w.openTo t u).2.send t req).1 = true ∧ (sendBody t o ((w.openTo t u).2.send t req).2).1 = true

/-- Every hop of the loop that is begun comes to its parser. -/
def EachStarts (turns : Nat) : Nat → UInt32 → HttpUrl → SinkGuard → FetchResult → World σ → Prop
  | 0, _, _, _, _, _ => True
  | fuel + 1, hop, u, g, res, w => o.redirects < hop ∨ (Starts t o u w ∧
      ∀ p g' res' w' next, oneHop t inner o turns u g (HttpParser.init false) res w = some (.ok, p, g', res', w') →
        g'.follow = true → httpIsRedirect p = true → httpResolveRedirect u p.location = some next →
          EachStarts turns fuel (hop + 1) next { g' with seen := 0, total := 0 }
            { res' with status := p.status, bytes := g'.seen, redirects := hop } w')

variable {t inner o} {turns fuel : Nat} {hop : UInt32} {u : HttpUrl} {g : SinkGuard} {res : FetchResult} {w : World σ}
  {raw raw' : HttpParser}

/-- A hop that comes to its parser initialises it. -/
theorem oneHop_of_starts (starts : Starts t o u w) :
    oneHop t inner o turns u g raw res w = oneHop t inner o turns u g raw' res w := by
  obtain ⟨opened, req, built, sent, body⟩ := starts
  unfold oneHop
  simp only [opened, built, sent, body, Bool.not_true, Bool.false_eq_true, if_false]

/-- A hop that does not fails with the parser as it was. -/
theorem oneHop_of_not_starts (stops : ¬Starts t o u w) : ∃ err res' w', err ≠ FetchError.ok ∧
    ∀ raw, oneHop t inner o turns u g raw res w = some (err, raw, g, res', w') := by
  unfold oneHop
  by_cases opened : (w.openTo t u).1 = true
  · simp only [opened, Bool.not_true, Bool.false_eq_true, if_false]
    cases built : httpBuildRequestEx requestMax u o with
    | none => exact ⟨.url, _, _, by decide, fun _ => rfl⟩
    | some req =>
      by_cases sent : ((w.openTo t u).2.send t req).1 = true
      · by_cases body : (sendBody t o ((w.openTo t u).2.send t req).2).1 = true
        · exact absurd ⟨opened, req, built, sent, body⟩ stops
        · simp only [sent, body, Bool.not_true, Bool.false_eq_true, if_false, Bool.not_false, if_true]
          exact ⟨.send, _, _, by decide, fun _ => rfl⟩
      · simp only [sent, Bool.not_false, if_true]
        exact ⟨.send, _, _, by decide, fun _ => rfl⟩
  · simp only [opened, Bool.not_false, if_true]
    exact ⟨.connect, _, _, by decide, fun _ => rfl⟩

theorem fetchLoop_independent_iff :
    (∀ raw raw', fetchLoop t inner o raw turns fuel hop u g res w = fetchLoop t inner o raw' turns fuel hop u g res w) ↔
      EachStarts t inner o turns fuel hop u g res w := by
  induction fuel generalizing hop u g res w with
  | zero => exact ⟨fun _ => trivial, fun _ _ _ => rfl⟩
  | succ fuel ih =>
    rw [EachStarts]
    by_cases many : o.redirects < hop
    · refine ⟨fun _ => .inl many, fun _ raw raw' => ?_⟩
      rw [fetchLoop, fetchLoop, if_pos many, if_pos many]
    by_cases starts : Starts t o u w
    · have hops := fun raw => @oneHop_of_starts σ t inner o turns u g res w raw (HttpParser.init false) starts
      have loops := fun raw => show fetchLoop t inner o raw turns (fuel + 1) hop u g res w = _ by
        rw [fetchLoop, if_neg many, hops]
      rw [or_iff_right many, and_iff_right starts]
      simp only [loops]
      cases ends : oneHop t inner o turns u g (HttpParser.init false) res w with
      | none => exact ⟨fun _ _ _ _ _ _ no => (nomatch no), fun _ _ _ => rfl⟩
      | some result =>
        obtain ⟨err, p, g₁, res₁, w₁⟩ := result
        simp only [Option.some.injEq, Prod.mk.injEq]
        by_cases wrong : err ≠ .ok
        · simp only [if_pos wrong]
          exact ⟨fun _ _ _ _ _ _ same => absurd same.1 wrong, fun _ _ _ => trivial⟩
        simp only [if_neg wrong]
        obtain rfl := not_not.mp wrong
        by_cases redirected : g₁.follow = true ∧ httpIsRedirect p = true
        · simp only [if_pos redirected]
          cases resolving : httpResolveRedirect u p.location with
          | none =>
            refine ⟨fun _ p' _ _ _ next same _ _ resolves => ?_, fun _ _ _ => rfl⟩
            rw [← same.2.1, resolving] at resolves
            cases resolves
          | some next =>
            refine ih.trans ⟨fun each p' g' res' w' next' same _ _ resolves => ?_, fun each => ?_⟩
            · obtain ⟨-, rfl, rfl, rfl, rfl⟩ := same
              obtain rfl := Option.some.inj (resolving.symm.trans resolves)
              exact each
            · exact each p g₁ res₁ w₁ next ⟨trivial, rfl, rfl, rfl, rfl⟩ redirected.1 redirected.2 resolving
        · simp only [if_neg redirected]
          refine ⟨fun _ p' g' _ _ _ same follow redirect => ?_, fun _ _ _ => trivial⟩
          obtain ⟨-, rfl, rfl, -, -⟩ := same
          exact absurd ⟨follow, redirect⟩ redirected
    · -- the parser is as it was before, and its status is reported
      obtain ⟨err, res', w', wrong, hops⟩ := @oneHop_of_not_starts σ t inner o turns u g res w starts
      refine ⟨fun same => ?_, fun each => absurd (each.resolve_left many).1 starts⟩
      have differs := same { HttpParser.init false with status := 0 } { HttpParser.init false with status := 1 }
      rw [fetchLoop, fetchLoop, if_neg many, if_neg many, hops, hops] at differs
      simp only [if_pos wrong] at differs
      have := congrArg (fun r => r.map fun r => r.2.1.status) differs
      exact absurd this (by simp)

/-- Whether each hop of a fetch that is begun comes to its parser; a URL that is refused begins none. -/
def FetchStarts (t : HttpTransport σ) (inner : Option (List UInt8 → σ → Int × σ)) (opts : Option (FetchOpts σ))
    (fuel : Nat) (url : List UInt8) (env : σ) : Prop :=
  ∀ u, httpParseUrl url = some u → EachStarts t inner (opts.getD {}) fuel fuel 0 u
    { limit := (opts.getD {}).maxBytes
      seen := 0
      total := 0
      overLimit := false
      sinkRefused := false
      follow := methodIs (opts.getD {}).method (ascii "GET") ∧ (opts.getD {}).bodyLen = 0 }
    ⟨.ok, 0, 0, 0, []⟩ ⟨env, []⟩

/-- What `http_fetch` reports does not depend on what was on the stack exactly when every hop that is begun comes to
its parser: it connects, the request fits, and it is sent. -/
theorem httpFetch_independent_iff (t : HttpTransport σ) (inner : Option (List UInt8 → σ → Int × σ))
    (opts : Option (FetchOpts σ)) (fuel : Nat) (url : List UInt8) (env : σ) :
    (∀ raw raw', httpFetch t inner opts raw fuel url env = httpFetch t inner opts raw' fuel url env) ↔
      FetchStarts t inner opts fuel url env := by
  unfold httpFetch FetchStarts
  simp only
  cases parsing : httpParseUrl url with
  | none => exact ⟨fun _ _ no => (nomatch no), fun _ _ _ => rfl⟩
  | some u =>
    refine fetchLoop_independent_iff.trans ⟨fun each u' same => ?_, fun each => each u rfl⟩
    obtain rfl := Option.some.inj same
    exact each

end Independent

/-- A transport that does not connect. -/
def refusing : HttpTransport Unit where
  openTo _ _ _ env := (-1, env)
  send _ env := (0, env)
  recv env := (none, env)
  close env := env

/-- Its status is the one that stood in the parser's place. -/
theorem not_all_fetches_independent : ¬∀ (σ : Type) (t : HttpTransport σ)
    (inner : Option (List UInt8 → σ → Int × σ)) (opts : Option (FetchOpts σ)) (raw raw' : HttpParser) (fuel : Nat)
    (url : List UInt8) (env : σ), httpFetch t inner opts raw fuel url env = httpFetch t inner opts raw' fuel url env := by
  intro all
  have same := all Unit refusing none none { init false with status := 0 } { init false with status := 200 } 1
    (ascii "http://a/") ()
  have differs := congrArg (fun r => r.map fun r => r.2.1.status) same
  exact absurd differs (by decide +kernel)

end RPCortex.Http
