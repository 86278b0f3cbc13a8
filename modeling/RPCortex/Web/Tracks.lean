import RPCortex.Web.Lines

/-! Callbacks that may refuse.  Up to its first refusal a sink sees what a sink that accepts
everything sees, and the parser is in the same state; with the refusal the parser fails. -/

namespace RPCortex.Http

open Lib HttpParser

variable {ω : Type}

/-- A relation between the world of the callbacks and the log of those that accept everything, which
each call keeps unless it refuses; `most` bounds the bytes of a call. -/
structure Tracks (cb : Callbacks ω) (most : Nat) (R : HttpParser → ω → Log → Prop)
    (Refused : ω → Prop) : Prop where
  sink : ∃ f, cb.sink = some f ∧ ∀ p v log d, R p v log → p.state.readsLines = false →
    d.length ≤ most →
      if (f p d v).1 = 0 then R p (f p d v).2 { log with body := log.body ++ d }
      else Refused (f p d v).2
  header : ∀ p q v log, R p v log → R p (callHeader cb q v) (callHeader recording q log)
  moves : ∀ p p' v log, R p v log →
    (p.state = .status ∨ p'.status = p.status ∧ p'.state ≠ .status) → R p' v log

variable {cb : Callbacks ω} {most : Nat} {R : HttpParser → ω → Log → Prop} {Refused : ω → Prop}
  {p : HttpParser} {v : ω} {log : Log} {d data : List UInt8}

/-- What became of the callbacks: they still follow, or they have refused and the parser failed. -/
def Outcome (R : HttpParser → ω → Log → Prop) (Refused : ω → Prop)
    (a : HttpParser × ω × List UInt8) (b : HttpParser × Log × List UInt8) : Prop :=
  a.1 = b.1 ∧ a.2.2 = b.2.2 ∧ R a.1 a.2.1 b.2.1 ∨ a.1.state = .error ∧ Refused a.2.1

/-- What a line does to the parser is the same for all callbacks; they get a line at most. -/
theorem onLine_shape (p : HttpParser) : ∃ p' q, ∃ calls : Bool,
    (∀ {ω : Type} (cb : Callbacks ω) (v : ω),
      onLine cb p v = (p', if calls then callHeader cb q v else v)) ∧
    (p.state = .status ∨ p'.status = p.status ∧ p'.state ≠ .status ∨ p' = p) := by
  cases hs : p.state with
  | status =>
    by_cases http : p.text.take 5 ≠ ascii "HTTP/"
    · exact ⟨_, p, false, fun cb v => by simp only [onLine, hs, parseStatusLine, if_pos http]; rfl,
        .inl rfl⟩
    · cases cut : cutAt 0x20 p.text with
      | none =>
        exact ⟨_, p, false,
          fun cb v => by simp only [onLine, hs, parseStatusLine, if_neg http, cut]; rfl, .inl rfl⟩
      | some parts =>
        cases head : (parts.2.dropWhile (· = 0x20)).head? with
        | none =>
          exact ⟨_, p, false,
            fun cb v => by simp only [onLine, hs, parseStatusLine, if_neg http, cut, head]; rfl,
            .inl rfl⟩
        | some c =>
          by_cases digit : c < 0x30 ∨ 0x39 < c
          · exact ⟨_, p, false, fun cb v => by
              simp only [onLine, hs, parseStatusLine, if_neg http, cut, head, if_pos digit]; rfl,
              .inl rfl⟩
          · by_cases range :
              (strtoint (2 ^ 31) 10 (parts.2.dropWhile (· = 0x20))).getD 0 < 100 ∨
                599 < (strtoint (2 ^ 31) 10 (parts.2.dropWhile (· = 0x20))).getD 0
            · exact ⟨_, p, false, fun cb v => by
                simp only [onLine, hs, parseStatusLine, if_neg http, cut, head, if_neg digit,
                  if_pos range]; rfl, .inl rfl⟩
            · exact ⟨_, _, true, fun cb v => by
                simp only [onLine, hs, parseStatusLine, if_neg http, cut, head, if_neg digit,
                  if_neg range]; rfl, .inl rfl⟩
  | headers =>
    by_cases empty : p.line = []
    · obtain ⟨state, eq, next⟩ := headersComplete_cases p
      refine ⟨headersComplete p, p, false, fun cb v => ?_, .inr (.inl ?_)⟩
      · simp only [onLine, hs, if_pos empty]
        rfl
      · rw [eq]
        rcases next with rfl | rfl | ⟨rfl, -⟩ | rfl <;> exact ⟨rfl, nofun⟩
    · obtain ⟨contentLength, chunked, location, eq⟩ := parseHeaderLine_cases p
      refine ⟨parseHeaderLine p, p, true, fun cb v => ?_, .inr (.inl ?_)⟩
      · simp only [onLine, hs, if_neg empty]
        rfl
      · rw [eq]
        exact ⟨rfl, by rw [hs]; nofun⟩
  | chunkSize =>
    cases size : strtoint (2 ^ 63) 16 p.text with
    | none =>
      exact ⟨{ p with state := .error }, p, false,
        fun cb v => by simp only [onLine, hs, size]; rfl, .inr (.inl ⟨rfl, nofun⟩)⟩
    | some n =>
      by_cases neg : n < 0
      · exact ⟨{ p with state := .error }, p, false,
          fun cb v => by simp only [onLine, hs, size, if_pos neg]; rfl,
          .inr (.inl ⟨rfl, nofun⟩)⟩
      · by_cases zero : n = 0
        · exact ⟨{ p with state := .trailer }, p, false,
            fun cb v => by simp only [onLine, hs, size, if_neg neg, if_pos zero]; rfl,
            .inr (.inl ⟨rfl, nofun⟩)⟩
        · exact ⟨{ p with chunkLeft := n, state := .chunkData }, p, false,
            fun cb v => by simp only [onLine, hs, size, if_neg neg, if_neg zero]; rfl,
            .inr (.inl ⟨rfl, nofun⟩)⟩
  | chunkCrlf =>
    by_cases empty : p.line ≠ []
    · exact ⟨{ p with state := .error }, p, false,
        fun cb v => by simp only [onLine, hs, if_pos empty]; rfl, .inr (.inl ⟨rfl, nofun⟩)⟩
    · exact ⟨{ p with state := .chunkSize }, p, false,
        fun cb v => by simp only [onLine, hs, if_neg empty]; rfl, .inr (.inl ⟨rfl, nofun⟩)⟩
  | trailer =>
    by_cases empty : p.line = []
    · exact ⟨{ p with state := .done }, p, false,
        fun cb v => by simp only [onLine, hs, if_pos empty]; rfl, .inr (.inl ⟨rfl, nofun⟩)⟩
    · exact ⟨p, p, false, fun cb v => by simp only [onLine, hs, if_neg empty]; rfl,
        .inr (.inr rfl)⟩
  | bodyLen => exact ⟨p, p, false, fun cb v => by simp only [onLine, hs]; rfl, .inr (.inr rfl)⟩
  | bodyEof => exact ⟨p, p, false, fun cb v => by simp only [onLine, hs]; rfl, .inr (.inr rfl)⟩
  | chunkData => exact ⟨p, p, false, fun cb v => by simp only [onLine, hs]; rfl, .inr (.inr rfl)⟩
  | done => exact ⟨p, p, false, fun cb v => by simp only [onLine, hs]; rfl, .inr (.inr rfl)⟩
  | error => exact ⟨p, p, false, fun cb v => by simp only [onLine, hs]; rfl, .inr (.inr rfl)⟩

/-- A line keeps the relation. -/
theorem onLine_tracks (tracks : Tracks cb most R Refused) (h : R p v log) :
    (onLine cb p v).1 = (onLine recording p log).1 ∧
      R (onLine cb p v).1 (onLine cb p v).2 (onLine recording p log).2 := by
  obtain ⟨p', q, calls, eq, moved⟩ := onLine_shape p
  have kept : R p' v log := by
    rcases moved with early | same | rfl
    · exact tracks.moves p p' v log h (.inl early)
    · exact tracks.moves p p' v log h (.inr same)
    · exact h
  rw [eq cb v, eq recording log]
  refine ⟨rfl, ?_⟩
  cases calls with
  | false => exact kept
  | true => exact tracks.header p' q v log kept

/-- Body bytes are taken as they are by callbacks that accept everything, or they are refused. -/
theorem emit_tracks (tracks : Tracks cb most R Refused) (h : R p v log)
    (body : p.state.readsLines = false) (fits : d.length ≤ most) :
    (∃ v', emit cb d p v = (true, { p with bodySeen := p.bodySeen + d.length }, v') ∧
      R p v' { log with body := log.body ++ d }) ∨
    ∃ rc v', emit cb d p v = (false, { p with sinkRc := rc, state := .error }, v') ∧
      Refused v' := by
  by_cases none : d = []
  · subst none
    refine .inl ⟨v, by simp [emit], ?_⟩
    rw [List.append_nil]
    exact h
  · obtain ⟨f, some, call⟩ := tracks.sink
    have called := call p v log d h body fits
    by_cases zero : (f p d v).1 = 0
    · rw [if_pos zero] at called
      exact .inl ⟨_, by simp only [emit, if_neg none, some, zero]; rfl, called⟩
    · rw [if_neg zero] at called
      exact .inr ⟨_, _, by simp only [emit, if_neg none, some, ne_eq, zero]; rfl, called⟩

/-- One turn of the loop. -/
theorem feedOnce_tracks (tracks : Tracks cb most R Refused) (h : R p v log)
    (fits : data.length ≤ most) :
    Outcome R Refused (feedOnce cb p v data) (feedOnce recording p log data) := by
  have taken (n : Nat) : (data.take n).length ≤ most := by
    rw [List.length_take]
    omega
  have notStatus {q : HttpParser} (same : q.status = p.status) (ne : q.state ≠ .status)
      {v' : ω} {log' : Log} (now : R p v' log') : R q v' log' :=
    tracks.moves p q v' log' now (.inr ⟨same, ne⟩)
  cases hs : p.state with
  | bodyLen =>
    rcases emit_tracks (d := data.take (takes (p.contentLength - p.bodySeen) data.length)) tracks h
      (by rw [hs]; rfl) (taken _) with ⟨v', eq, now⟩ | ⟨rc, v', eq, refused⟩
    · simp only [feedOnce, hs, eq, emit_recording]
      refine .inl ⟨rfl, rfl, notStatus ?_ ?_ now⟩
      · simp only [Bool.not_true, Bool.false_eq_true, if_false]
        split <;> rfl
      · simp only [Bool.not_true, Bool.false_eq_true, if_false]
        split <;> simp
    · simp only [feedOnce, hs, eq]
      exact .inr ⟨rfl, refused⟩
  | bodyEof =>
    rcases emit_tracks (d := data) tracks h (by rw [hs]; rfl) fits with
      ⟨v', eq, now⟩ | ⟨rc, v', eq, refused⟩
    · simp only [feedOnce, hs, eq, emit_recording, Bool.not_true, Bool.false_eq_true, if_false]
      refine .inl ⟨rfl, rfl, notStatus ?_ ?_ now⟩
      · rfl
      · simp
    · simp only [feedOnce, hs, eq]
      exact .inr ⟨rfl, refused⟩
  | chunkData =>
    rcases emit_tracks (d := data.take (takes p.chunkLeft data.length)) tracks h
      (by rw [hs]; rfl) (taken _) with ⟨v', eq, now⟩ | ⟨rc, v', eq, refused⟩
    · simp only [feedOnce, hs, eq, emit_recording]
      refine .inl ⟨rfl, rfl, notStatus ?_ ?_ now⟩
      · simp only [Bool.not_true, Bool.false_eq_true, if_false]
        split <;> rfl
      · simp only [Bool.not_true, Bool.false_eq_true, if_false]
        split <;> simp [lineReset]
    · simp only [feedOnce, hs, eq]
      exact .inr ⟨rfl, refused⟩
  | _ =>
    cases data with
    | nil =>
      simp only [feedOnce, hs]
      exact .inl ⟨rfl, rfl, h⟩
    | cons c rest =>
      have line : R (feedLine p c).2 v log := by
        refine tracks.moves p _ v log h ?_
        unfold feedLine
        split
        · simp [hs]
        · split <;> simp [hs]
      cases ready : (feedLine p c).1 with
      | false =>
        simp only [feedOnce, hs, ready]
        exact .inl ⟨rfl, rfl, line⟩
      | true =>
        obtain ⟨same, now⟩ := onLine_tracks tracks line
        simp only [feedOnce, hs, ready]
        refine .inl ⟨congrArg lineReset same, rfl, ?_⟩
        refine tracks.moves _ _ _ _ now ?_
        by_cases early : (onLine cb (feedLine p c).2 v).1.state = .status
        · exact .inl early
        · exact .inr ⟨rfl, early⟩

theorem length_feedOnce (cb : Callbacks ω) (p : HttpParser) (v : ω) (data : List UInt8) :
    (feedOnce cb p v data).2.2.length ≤ data.length := by
  unfold feedOnce
  split
  · simp only
    split
    · exact Nat.le_refl _
    · simp
  · simp only
    split
    · exact Nat.le_refl _
    · exact Nat.zero_le _
  · simp only
    split
    · exact Nat.le_refl _
    · simp
  · cases data with
    | nil => exact Nat.le_refl _
    | cons c rest =>
      simp only
      split
      · exact Nat.le_succ _
      · exact Nat.le_succ _

theorem feedLoop_stopped {fuel : Nat} (stopped : ¬p.running = true) :
    feedLoop cb fuel p v data = (p, v, data) := by
  cases fuel with
  | zero => rfl
  | succ fuel => rw [feedLoop, if_pos (by simp [stopped])]

/-- The loop of `http_parser_feed`. -/
theorem feedLoop_tracks (tracks : Tracks cb most R Refused) (fuel : Nat) (h : R p v log)
    (fits : data.length ≤ most) :
    Outcome R Refused (feedLoop cb fuel p v data) (feedLoop recording fuel p log data) := by
  induction fuel generalizing p v log data with
  | zero => exact .inl ⟨rfl, rfl, h⟩
  | succ fuel ih =>
    rw [feedLoop, feedLoop]
    by_cases stop : data = [] ∨ (!p.running) = true
    · rw [if_pos stop, if_pos stop]
      exact .inl ⟨rfl, rfl, h⟩
    · rw [if_neg stop, if_neg stop]
      have shorter := length_feedOnce recording p log data
      change Outcome R Refused
        (feedLoop cb fuel (feedOnce cb p v data).1 (feedOnce cb p v data).2.1
          (feedOnce cb p v data).2.2)
        (feedLoop recording fuel (feedOnce recording p log data).1
          (feedOnce recording p log data).2.1 (feedOnce recording p log data).2.2)
      rcases feedOnce_tracks tracks h fits with ⟨parser, rest, now⟩ | ⟨failed, refused⟩
      · rw [← parser, ← rest]
        rw [← rest] at shorter
        exact ih now (Nat.le_trans shorter fits)
      · rw [feedLoop_stopped (by simp [running, HttpParser.failed, failed])]
        exact .inr ⟨failed, refused⟩

theorem feed_tracks (tracks : Tracks cb most R Refused) (h : R p v log)
    (fits : data.length ≤ most) :
    Outcome R Refused (httpParserFeed cb p v data) (httpParserFeed recording p log data) :=
  feedLoop_tracks tracks _ h fits

/-- Bytes are left only when the parser is done or failed. -/
theorem feed_rest (log : Log) (data : List UInt8) (expecting : Expecting p) :
    (httpParserFeed recording p log data).2.2 = [] ∨
      (httpParserFeed recording p log data).1.running = false := by
  suffices h : ∀ fuel p log data, data.length < fuel → Expecting p →
      (feedLoop recording fuel p log data).2.2 = [] ∨
        (feedLoop recording fuel p log data).1.running = false from
    h _ p log data (Nat.lt_succ_self _) expecting
  intro fuel
  induction fuel with
  | zero => exact fun _ _ _ h => absurd h (Nat.not_lt_zero _)
  | succ fuel ih =>
    intro p log data enough expecting
    rw [feedLoop]
    by_cases none : data = []
    · rw [if_pos (.inl none)]
      exact .inl none
    · by_cases run : p.running = true
      · rw [if_neg (by simp [none, run])]
        obtain ⟨taken, rest, t, once, rfl, some, bytes⟩ := feedOnce_eq (w := log) expecting run none
        have more := expecting_foldl (s := (p, log)) expecting taken
        rw [bytes] at more
        have short : 0 < taken.length := List.length_pos_iff.mpr some
        rw [List.length_append] at enough
        rw [once]
        exact ih t.1 t.2 rest (by omega) more
      · rw [if_pos (.inr (by simp [run]))]
        exact .inr (Bool.not_eq_true _ ▸ run)

end RPCortex.Http
