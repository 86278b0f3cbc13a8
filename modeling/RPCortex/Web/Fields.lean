import RPCortex.Web.Lines

/-! Numbers and header fields as the parser reads them, up to the end of the header. -/

namespace RPCortex.Http

open Lib HttpParser

/-! ### Numbers -/

section Numbers

variable {base limit : Nat} {c : UInt8} {rest : List UInt8}

theorem digits_append {ds : List UInt8} (isDigit : ∀ c ∈ ds, (digit base c).isSome)
    (ends : ∀ c ∈ rest.head?, digit base c = none) : digits base (ds ++ rest) = digits base ds := by
  induction ds with
  | nil =>
    cases rest with
    | nil => rfl
    | cons c rest => simp [digits, ends c (by simp)]
  | cons c ds ih =>
    have h : (digit base c).isSome := isDigit c (by simp)
    obtain ⟨d, hd⟩ := Option.isSome_iff_exists.mp h
    simp only [List.cons_append, digits, hd, ih fun x hx => isDigit x (by simp [hx])]

/-- A digit starts no blank, no sign and no prefix. -/
theorem digit_isSome (h : (digit base c).isSome) :
    isSpace c = false ∧ c ≠ 0x2D ∧ c ≠ 0x2B := by
  refine ⟨?_, ?_, ?_⟩
  · by_contra space
    rw [Bool.not_eq_false] at space
    unfold isSpace at space
    rcases of_decide_eq_true space with rfl | ⟨lo, hi⟩
    · simp [digit] at h
    · have small : c.toNat ≤ 0x0D := by simpa [UInt8.le_iff_toNat_le] using hi
      have d : ¬0x30 ≤ c := by
        rw [UInt8.le_iff_toNat_le]
        simp
        omega
      have u : ¬0x41 ≤ c := by
        rw [UInt8.le_iff_toNat_le]
        simp
        omega
      have l : ¬0x61 ≤ c := by
        rw [UInt8.le_iff_toNat_le]
        simp
        omega
      simp [digit, d, u, l] at h
  · rintro rfl
    simp [digit] at h
  · rintro rfl
    simp [digit] at h

theorem signOf_digit (h : (digit base c).isSome) : signOf (c :: rest) = (false, c :: rest) := by
  obtain ⟨-, minus, plus⟩ := digit_isSome h
  unfold signOf
  split
  · rename_i eq
    exact absurd (List.cons.inj eq).1 minus
  · rename_i eq
    exact absurd (List.cons.inj eq).1 plus
  · rfl

/-- What does not continue a number. -/
def Stops (rest : List UInt8) : Prop :=
  ∀ c ∈ rest.head?, digit 16 c = none ∧ c ≠ 0x78 ∧ c ≠ 0x58

theorem digit_ten (h : digit 16 c = none) : digit 10 c = none := by
  unfold digit at h ⊢
  simp only [Option.filter_eq_none_iff, decide_eq_true_eq] at h ⊢
  intro v hv
  have := h v hv
  omega

theorem stops_blank (h : rest.head?.all blank) : Stops rest := by
  intro c hc
  rw [Option.mem_def.mp hc] at h
  have : blank c = true := h
  unfold blank at this
  rcases of_decide_eq_true this with rfl | rfl <;> exact ⟨by decide, by decide, by decide⟩

theorem stops_separated (h : separated rest) : Stops rest := by
  intro c hc
  unfold separated at h
  rw [Option.mem_def.mp hc] at h
  have : (blank c || decide (c = 0x3B)) = true := h
  unfold blank at this
  simp only [Bool.or_eq_true, decide_eq_true_eq] at this
  rcases this with (rfl | rfl) | rfl <;> exact ⟨by decide, by decide, by decide⟩

theorem digit_ne (h : (digit 16 c).isSome) : c ≠ 0x78 ∧ c ≠ 0x58 := by
  constructor <;> rintro rfl <;> simp [digit] at h

/-- A number has no prefix. -/
theorem skipHexPrefix_number {ds : List UInt8} (isDigit : ∀ c ∈ ds, (digit base c).isSome)
    (some : ds ≠ []) (stops : Stops rest) : skipHexPrefix base (ds ++ rest) = ds ++ rest := by
  by_cases hex : base = 16
  · subst hex
    unfold skipHexPrefix
    split
    · rename_i x c tail eq
      rw [if_neg, eq]
      rintro ⟨-, hx, -⟩
      match ds, some with
      | [d], _ =>
        have second : x ∈ rest.head? := by
          rw [List.singleton_append] at eq
          rw [(List.cons.inj eq).2]
          rfl
        have := stops x second
        rcases hx with rfl | rfl
        · exact this.2.1 rfl
        · exact this.2.2 rfl
      | d :: e :: ds, _ =>
        have second : x = e := by
          simp only [List.cons_append, List.cons.injEq] at eq
          exact eq.2.1.symm
        have := digit_ne (isDigit x (by simp [second]))
        rcases hx with rfl | rfl
        · exact this.1 rfl
        · exact this.2 rfl
    · rfl
  · unfold skipHexPrefix
    split
    · rename_i eq
      rw [if_neg fun h => hex h.1, eq]
    · rfl

/-- A number is read as what it is, up to the range of the result. -/
theorem strtoint_number (n : Number base) (ten : base = 10 ∨ base = 16) (fits : n.val < limit)
    (stops : Stops rest) : strtoint limit base (n.bytes ++ rest) = some (n.val : Int) := by
  have ends : ∀ c ∈ rest.head?, digit base c = none := by
    intro c hc
    rcases ten with rfl | rfl
    · exact digit_ten (stops c hc).1
    · exact (stops c hc).1
  have read : digits base (n.bytes ++ rest) = digits base n.bytes := digits_append n.isDigit ends
  have front : ∃ c cs, n.bytes = c :: cs := List.exists_cons_of_ne_nil n.some
  obtain ⟨c, cs, eq⟩ := front
  have isDigit : (digit base c).isSome := n.isDigit c (by simp [eq])
  have noSpace : (n.bytes ++ rest).dropWhile isSpace = n.bytes ++ rest := by
    rw [eq, List.cons_append, List.dropWhile_cons_of_neg (by simp [(digit_isSome isDigit).1])]
  have noSign : signOf (n.bytes ++ rest) = (false, n.bytes ++ rest) := by
    rw [eq, List.cons_append]
    exact signOf_digit isDigit
  obtain ⟨d, hd⟩ := Option.isSome_iff_exists.mp isDigit
  have nonempty : digits base n.bytes = d :: digits base cs := by
    rw [eq]
    simp only [digits, hd]
  have value : ofDigits base (d :: digits base cs) = n.val := by rw [← nonempty]; rfl
  have clamp : min n.val (limit - 1) = n.val := by omega
  unfold strtoint
  simp only [noSpace, noSign, skipHexPrefix_number n.isDigit n.some stops, read, nonempty, value,
    Bool.false_eq_true, if_false, clamp]

end Numbers

/-! ### Header fields -/

theorem nameChar_ne {c : UInt8} (h : nameChar c = true) : c ≠ 0x20 ∧ c ≠ 0x3A := by
  unfold nameChar at h
  obtain ⟨lo, -, colon⟩ := of_decide_eq_true h
  refine ⟨?_, colon⟩
  rintro rfl
  exact absurd lo (by decide)

/-- The name in front of the colon is what is compared. -/
theorem afterName_field {name want value : List UInt8} (chars : ∀ c ∈ name, nameChar c = true)
    (folded : ∀ c ∈ want, lower c = c ∧ c ≠ 0x3A) :
    (match afterName (name ++ 0x3A :: value) want with
      | none => false
      | some rest => decide ((rest.dropWhile (· = 0x20)).head? = some 0x3A)) =
        decide (name.map lower = want) := by
  induction want generalizing name with
  | nil =>
    cases name with
    | nil => simp [afterName]
    | cons c name =>
      have hc := nameChar_ne (chars c (by simp))
      simp [afterName, hc.1, hc.2]
  | cons n want ih =>
    have hn := folded n (by simp)
    cases name with
    | nil =>
      have colon : lower 0x3A = 0x3A := by decide
      have ne : ¬lower 0x3A = lower n := by
        rw [hn.1, colon]
        exact fun h => hn.2 h.symm
      simp [afterName, ne]
    | cons c name =>
      rw [List.cons_append, afterName, List.map_cons, hn.1]
      by_cases same : lower c = n
      · rw [if_pos same, same, ih (fun x hx => chars x (by simp [hx]))
          fun x hx => folded x (by simp [hx])]
        simp
      · rw [if_neg same]
        simp [same]

theorem hdrIs_field (f : Field) {want : List UInt8}
    (folded : ∀ c ∈ want, lower c = c ∧ c ≠ 0x3A) : hdrIs f.line.bytes want = f.named want := by
  rw [f.is_line]
  exact afterName_field f.name_chars folded

theorem hdrValue_field (f : Field) : hdrValue f.line.bytes = f.value := by
  have noColon : (0x3A : UInt8) ∉ f.name := fun h => (nameChar_ne (f.name_chars _ h)).2 rfl
  rw [hdrValue, f.is_line, cutAt_append noColon]
  have lead : ∀ c ∈ f.lead, decide (c = 0x20 ∨ c = 0x09) = true := f.lead_blank
  have start := f.value_start
  simp only
  rw [List.dropWhile_append_of_pos lead]
  cases hv : f.value with
  | nil => rfl
  | cons c value =>
    rw [hv] at start
    exact List.dropWhile_cons_of_neg (by simpa [blank] using start)

/-! ### The header -/

variable {p : HttpParser} {w : Log} {s : Recorded}

theorem text_line (l : Line) (p : HttpParser) :
    { p with line := l.bytes, lineOver := false : HttpParser }.text = l.bytes :=
  cstr_of_notMem l.zero_notMem

/-- What the parser knows from a status line and some header fields. -/
structure Knows (r : Response) (fields : List Field) (s : Recorded) : Prop where
  state : s.1.state = .headers
  status : s.1.status = r.code.val
  fresh : s.1.line = []
  bodySeen : s.1.bodySeen = 0
  headOnly : s.1.headOnly = false
  body : s.2.body = []
  chunked : s.1.chunked = true ↔ Response.showsChunked fields
  noLength : (∀ f ∈ fields, ¬f.named (ascii "content-length")) → s.1.contentLength = -1
  length : ∀ n, (∀ f ∈ fields, f.named (ascii "content-length") → isLength f.value n) →
    (∃ f ∈ fields, f.named (ascii "content-length")) → s.1.contentLength = n

/-- What the fields of a header say about the length after one more. -/
theorem parseHeaderLine_field (f : Field) (text : p.text = f.line.bytes) :
    (parseHeaderLine p).chunked =
        (p.chunked || f.named (ascii "transfer-encoding") && namesChunked f.value) ∧
      (f.named (ascii "content-length") = false →
        (parseHeaderLine p).contentLength = p.contentLength) ∧
      ∀ n, f.named (ascii "content-length") = true → isLength f.value n →
        (parseHeaderLine p).contentLength = n := by
  have length : hdrIs p.text (ascii "content-length") = f.named (ascii "content-length") := by
    rw [text]
    exact hdrIs_field f (by decide +kernel)
  have encoding : hdrIs p.text (ascii "transfer-encoding") =
      f.named (ascii "transfer-encoding") := by
    rw [text]
    exact hdrIs_field f (by decide +kernel)
  have value : hdrValue p.text = f.value := by
    rw [text]
    exact hdrValue_field f
  unfold parseHeaderLine
  rw [length, encoding, value]
  cases isLen : f.named (ascii "content-length") with
  | true =>
    have notTe : f.named (ascii "transfer-encoding") = false := by
      unfold Field.named at isLen ⊢
      rw [of_decide_eq_true isLen]
      decide
    rw [if_pos rfl, notTe, Bool.false_and, Bool.or_false]
    refine ⟨?_, nofun, ?_⟩
    · split
      · rfl
      · split <;> rfl
    · rintro n - ⟨number, rest, eq, blanks, rfl⟩
      have stops : Stops rest := by
        refine stops_blank ?_
        cases rest with
        | nil => rfl
        | cons c rest => exact blanks c (by simp)
      rw [eq, strtoint_number number (.inl rfl) number.holds stops]
      simp
  | false =>
    rw [if_neg Bool.false_ne_true]
    cases isTe : f.named (ascii "transfer-encoding") with
    | true =>
      rw [if_pos rfl]
      refine ⟨?_, fun _ => ?_, nofun⟩
      · split
        · rename_i names
          simp [names]
        · rename_i names
          simp [names]
      · split <;> rfl
    | false =>
      rw [if_neg Bool.false_ne_true]
      refine ⟨?_, fun _ => ?_, nofun⟩
      · split
        · split <;> simp
        · simp
      · split
        · split <;> rfl
        · rfl

/-- A header field is a line that is not empty. -/
theorem Field.line_ne (f : Field) : f.line.bytes ≠ [] := by
  rw [f.is_line]
  simp

theorem onLine_headers (hs : p.state = .headers) (some : p.line ≠ []) :
    onLine recording p w = (parseHeaderLine p, callHeader recording p w) := by
  rw [onLine, hs]
  exact if_neg some

/-- One field more. -/
theorem knows_field {r : Response} {fields : List Field} (known : Knows r fields s) (f : Field) :
    Knows r (fields ++ [f]) (f.line.wire.foldl feedByte s) := by
  obtain ⟨p, w⟩ := s
  have reads : p.state.readsLines = true := by rw [known.state]; rfl
  have hs : p.state = .headers := known.state
  obtain ⟨chunked, sameLength, newLength⟩ := parseHeaderLine_field
    (p := { p with line := f.line.bytes, lineOver := false }) f (text_line f.line p)
  obtain ⟨contentLength, chunked', location, eq⟩ :=
    parseHeaderLine_cases { p with line := f.line.bytes, lineOver := false }
  rw [foldl_line f.line reads known.fresh,
    onLine_headers (p := { p with line := f.line.bytes, lineOver := false }) hs f.line_ne, eq]
  rw [eq] at chunked sameLength newLength
  have shows : Response.showsChunked (fields ++ [f]) ↔ Response.showsChunked fields ∨
      (f.named (ascii "transfer-encoding") = true ∧ namesChunked f.value = true) := by
    simp [Response.showsChunked, or_and_right, exists_or]
  refine ⟨hs, known.status, rfl, known.bodySeen, known.headOnly, known.body, ?_, ?_, ?_⟩
  · have before : p.chunked = true ↔ Response.showsChunked fields := known.chunked
    have after : chunked' = true ↔ Response.showsChunked (fields ++ [f]) := by
      simp only at chunked
      rw [chunked, Bool.or_eq_true, Bool.and_eq_true, before, shows]
    exact after
  · intro none
    have notLen : f.named (ascii "content-length") = false := by simpa using none f (by simp)
    exact (sameLength notLen).trans (known.noLength fun g hg => none g (by simp [hg]))
  · intro n all some
    cases isLen : f.named (ascii "content-length") with
    | true => exact newLength n isLen (all f (by simp) isLen)
    | false =>
      obtain ⟨g, hg, named⟩ := some
      rcases List.mem_append.mp hg with hg | hg
      · exact (sameLength isLen).trans
          (known.length n (fun g hg => all g (by simp [hg])) ⟨g, hg, named⟩)
      · rw [List.mem_singleton.mp hg, isLen] at named
        exact absurd named Bool.false_ne_true

/-- All fields of a header. -/
theorem knows_fields {r : Response} {fields : List Field} (known : Knows r fields s)
    (more : List Field) :
    Knows r (fields ++ more) ((more.flatMap fun f => f.line.wire).foldl feedByte s) ∧
      Waits s (more.flatMap fun f => f.line.wire) := by
  induction more generalizing fields s with
  | nil =>
    rw [List.append_nil]
    exact ⟨known, waits_nil⟩
  | cons f more ih =>
    have reads : s.1.state.readsLines = true := by rw [known.state]; rfl
    obtain ⟨after, waits⟩ := ih (knows_field known f)
    rw [List.append_assoc] at after
    rw [List.flatMap_cons, List.foldl_append]
    exact ⟨after, (waits_line f.line reads known.fresh).append waits⟩

/-- The status line gives the status. -/
theorem parseStatusLine_status (r : Response) (text : p.text = r.statusLine.bytes) :
    parseStatusLine recording p w =
      ({ p with status := r.code.val, state := .headers },
        callHeader recording { p with status := r.code.val } w) := by
  have noSpace : (0x20 : UInt8) ∉ ascii "HTTP/" ++ r.version := by
    rw [List.mem_append]
    rintro (h | h)
    · exact absurd h (by decide)
    · exact (nameChar_ne (r.version_chars _ h)).1 rfl
  obtain ⟨c, cs, digits⟩ := List.exists_cons_of_ne_nil r.code.some
  have isDigit : (digit 10 c).isSome := r.code.isDigit c (by simp [digits])
  have notSpace : c ≠ 0x20 := by
    rintro rfl
    simp [digit] at isDigit
  have skip : (r.code.bytes ++ r.reason).dropWhile (· = 0x20) = r.code.bytes ++ r.reason := by
    rw [digits, List.cons_append, List.dropWhile_cons_of_neg (by simpa using notSpace)]
  have range := r.status_range
  have number : strtoint (2 ^ 31) 10 (r.code.bytes ++ r.reason) = some (r.code.val : Int) :=
    strtoint_number r.code (.inl rfl) (by omega) (stops_blank r.reason_separated)
  have front : (r.code.bytes ++ r.reason).head? = some c := by rw [digits]; rfl
  have decimal : ¬(c < 0x30 ∨ 0x39 < c) := by
    intro outside
    unfold digit at isDigit
    have : ¬(0x30 ≤ c ∧ c ≤ 0x39) := by
      rintro ⟨lo, hi⟩
      rcases outside with h | h
      · exact absurd lo (UInt8.not_le.mpr h)
      · exact absurd hi (UInt8.not_le.mpr h)
    rw [if_neg this] at isDigit
    split at isDigit
    · rename_i h
      have := UInt8.le_iff_toNat_le.mp h.1
      simp at isDigit
    · split at isDigit
      · rename_i h
        have := UInt8.le_iff_toNat_le.mp h.1
        simp at isDigit
      · simp at isDigit
  have starts : (ascii "HTTP/" ++ r.version ++ 0x20 :: (r.code.bytes ++ r.reason)).take 5 =
      ascii "HTTP/" := by
    rw [List.append_assoc]
    rfl
  have inRange : ¬((r.code.val : Int) < 100 ∨ 599 < (r.code.val : Int)) := by omega
  unfold parseStatusLine
  simp only [text, r.is_status, starts, cutAt_append noSpace, skip, front, number]
  rw [if_neg (not_not_intro rfl), if_neg decimal, Option.getD_some, if_neg inRange]

/-- The status line. -/
theorem knows_status (r : Response) :
    Knows r [] (r.statusLine.wire.foldl feedByte (init false, ⟨[], []⟩)) := by
  rw [foldl_line r.statusLine rfl rfl]
  have line : onLine recording { init false with line := r.statusLine.bytes, lineOver := false }
      ⟨[], []⟩ = parseStatusLine recording
        { init false with line := r.statusLine.bytes, lineOver := false } ⟨[], []⟩ := rfl
  rw [line, parseStatusLine_status r (text_line r.statusLine _)]
  refine ⟨rfl, rfl, rfl, rfl, rfl, rfl, ?_, fun _ => rfl, ?_⟩
  · simp [Response.showsChunked, init, lineReset]
  · rintro n - ⟨f, hf, -⟩
    exact absurd hf List.not_mem_nil

/-- The parser when the header is complete, before it decides about the body. -/
theorem foldl_head (r : Response) : ∃ p w, Knows r r.fields (p, w) ∧
    r.head.foldl feedByte (init false, ⟨[], []⟩) =
      (lineReset (headersComplete { p with line := [], lineOver := false }), w) ∧
    Waits (init false, ⟨[], []⟩) r.head := by
  have status := knows_status r
  obtain ⟨known, waits⟩ := knows_fields status r.fields
  rw [List.nil_append] at known
  generalize hs : (r.fields.flatMap fun f => f.line.wire).foldl feedByte
    (r.statusLine.wire.foldl feedByte (init false, ⟨[], []⟩)) = s at known
  obtain ⟨p, w⟩ := s
  have state : p.state = .headers := known.state
  have reads : p.state.readsLines = true := by rw [state]; rfl
  refine ⟨p, w, known, ?_, ?_⟩
  · rw [Response.head, List.foldl_append, List.foldl_append, hs, ← wire_emptyLine,
      foldl_line emptyLine reads known.fresh]
    simp only [onLine, state, emptyLine, if_true]
  · have first : Waits (init false, ⟨[], []⟩) r.statusLine.wire := waits_line r.statusLine rfl rfl
    refine (first.append waits).append ?_
    rw [List.foldl_append, hs, ← wire_emptyLine]
    exact waits_line emptyLine reads known.fresh

end RPCortex.Http
