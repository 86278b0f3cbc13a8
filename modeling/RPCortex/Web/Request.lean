import RPCortex.Web.Parser

/-! URLs and requests: the URL functions of `httpparse.cpp` and the request text of
`httpfetch.cpp`. -/

namespace RPCortex.Http

open Lib

/-- `HTTP_HOST_MAX`. -/
abbrev httpHostMax : Nat := 64

/-- `HTTP_PATH_MAX`. -/
abbrev httpPathMax : Nat := 192

/-- `HTTP_EXTRA_MAX`. -/
abbrev httpExtraMax : Nat := 320

/-- `HttpUrl`. -/
structure HttpUrl where
  tls : Bool
  host : List UInt8
  port : Nat
  path : List UInt8
  deriving DecidableEq

/-- `copy_bounded`, which refuses rather than truncates. -/
def copyBounded (cap : Nat) (src : List UInt8) : Option (List UInt8) :=
  if cap ≤ src.length then none else some src

/-- The characters that end a host. -/
def endsHost (c : UInt8) : Bool := c = 0x2F ∨ c = 0x3A ∨ c = 0x40 ∨ c = 0x3F ∨ c = 0x23

/-- The digits of a port, up to the first that is past the largest port. -/
def portLoop (v : Nat) : List UInt8 → Option (Nat × List UInt8)
  | [] => some (v, [])
  | c :: rest =>
    if 0x30 ≤ c ∧ c ≤ 0x39 then
      if 65535 < v * 10 + (c.toNat - 0x30) then none
      else portLoop (v * 10 + (c.toNat - 0x30)) rest
    else some (v, c :: rest)

/-- The port behind a host, when one is given, and the rest of the URL. -/
def portOf (port : Nat) : List UInt8 → Option (Nat × List UInt8)
  | 0x3A :: ds =>
    match portLoop 0 ds with
    | none => none
    | some (v, rest) => if rest.length = ds.length ∨ v = 0 then none else some (v, rest)
  | p => some (port, p)

/-- The scheme: whether it is TLS, its port and the rest of the URL. -/
def schemeOf (url : List UInt8) : Option (Bool × Nat × List UInt8) :=
  if url.take 7 = ascii "http://" then some (false, 80, url.drop 7)
  else if url.take 8 = ascii "https://" then some (true, 443, url.drop 8)
  else none

/-- `http_parse_url`. -/
def httpParseUrl (url : List UInt8) : Option HttpUrl :=
  match schemeOf url with
  | none => none
  | some (tls, port, p) =>
    let host := p.takeWhile fun c => !endsHost c
    let p := p.dropWhile fun c => !endsHost c
    if p.head? = some 0x40 then none
    else if host = [] then none
    else
      match copyBounded httpHostMax host, portOf port p with
      | some host, some (port, []) => some { tls, host, port, path := ascii "/" }
      | some host, some (port, c :: rest) =>
        if c ≠ 0x2F then none
        else (copyBounded httpPathMax (c :: rest)).map fun path => { tls, host, port, path }
      | _, _ => none

/-- `http_resolve_redirect`: an absolute URL, or a path of the same host. -/
def httpResolveRedirect (u : HttpUrl) (location : List UInt8) : Option HttpUrl :=
  if location = [] then none
  else if location.take 7 = ascii "http://" ∨ location.take 8 = ascii "https://" then
    httpParseUrl location
  else if location.head? ≠ some 0x2F then none
  else (copyBounded httpPathMax location).map fun path => { u with path }

/-- `http_is_redirect`. -/
def httpIsRedirect (p : HttpParser) : Bool :=
  (p.status = 301 ∨ p.status = 302 ∨ p.status = 303 ∨ p.status = 307 ∨ p.status = 308) ∧
    p.location ≠ []

/-- `FetchOpts`; the callbacks change a state of the caller. -/
structure FetchOpts (σ : Type) where
  maxRedirects : UInt32 := 0
  maxBytes : UInt64 := 0
  userAgent : Option (List UInt8) := none
  poll : Option (σ → Int × σ) := none
  progress : Option (UInt64 → UInt64 → σ → σ) := none
  method : Option (List UInt8) := none
  headers : Option (List UInt8) := none
  body : Option (List UInt8) := none
  bodyLen : UInt32 := 0
  onHeader : Option (List UInt8 → σ → σ) := none

/-- The method, which is `GET` when none is given. -/
def methodOr (m : Option (List UInt8)) : List UInt8 :=
  match m with
  | none => ascii "GET"
  | some m => if m = [] then ascii "GET" else m

/-- An upper-case letter for a lower-case one. -/
def upper (c : UInt8) : UInt8 := if 0x61 ≤ c ∧ c ≤ 0x7A then c - 32 else c

/-- `method_is`. -/
def methodIs (m : Option (List UInt8)) (want : List UInt8) : Bool := (methodOr m).map upper = want

/-- What stands behind the first line end. -/
def behindLine : List UInt8 → Option (List UInt8)
  | 0x0D :: 0x0A :: rest => some rest
  | _ :: rest => behindLine rest
  | [] => none

/-- The loop of `block_has_header`. -/
def blockHasHeaderLoop (name : List UInt8) : Nat → List UInt8 → Bool
  | 0, _ => false
  | fuel + 1, p =>
    if p = [] then false
    else if (p.take name.length).map lower = name ∧ p[name.length]? = some 0x3A then true
    else
      match behindLine p with
      | none => false
      | some rest => blockHasHeaderLoop name fuel rest

/-- `block_has_header`: every turn passes a byte, so there are no more turns than bytes. -/
def blockHasHeader (block name : List UInt8) : Bool :=
  blockHasHeaderLoop name (block.length + 1) block

/-- A number in decimal. -/
def decimal (n : Nat) : List UInt8 := ascii (toString n)

/-- `http_build_request_ex`; `none` when the text does not fit `cap` bytes. -/
def httpBuildRequestEx {σ : Type} (cap : Nat) (u : HttpUrl) (o : FetchOpts σ) :
    Option (List UInt8) :=
  let extra := o.headers.getD []
  let head := methodOr o.method ++ ascii " " ++ u.path ++ ascii " HTTP/1.1\r\nHost: " ++ u.host ++
    ascii "\r\nUser-Agent: " ++ o.userAgent.getD (ascii "RPCortex/2.0") ++
    ascii "\r\nAccept-Encoding: identity\r\nConnection: close\r\n" ++ extra
  let length :=
    if o.bodyLen = 0 then []
    else
      (if blockHasHeader extra (ascii "content-type") then []
        else ascii "Content-Type: application/x-www-form-urlencoded\r\n") ++
        ascii "Content-Length: " ++ decimal o.bodyLen.toNat ++ ascii "\r\n"
  if cap ≤ head.length then none
  else if cap ≤ (head ++ length).length then none
  else if cap ≤ (head ++ length).length + 2 then none
  else some (head ++ length ++ ascii "\r\n")

/-! ### Header arguments -/

abbrev cr : UInt8 := 0x0D

abbrev lf : UInt8 := 0x0A

abbrev space : UInt8 := 0x20

/-- A space or a tab. -/
def isBlank (c : UInt8) : Bool := c = 0x20 || c = 0x09

/-- The line that `http_add_header` makes of an argument. -/
def headerLine (arg : List UInt8) : Option (List UInt8) :=
  if cr ∈ arg ∨ lf ∈ arg then none
  else
    let arg := arg.dropWhile isBlank
    let name := (arg.takeWhile (· ≠ 0x3A)).rdropWhile isBlank
    if 0x3A ∉ arg ∨ arg.takeWhile (· ≠ 0x3A) = [] then none
    else if name = [] then none
    else some (name ++ ascii ": " ++ (((arg.dropWhile (· ≠ 0x3A)).drop 1).dropWhile isBlank).rdropWhile isBlank)

/-- `http_add_header`: the block with the line behind it. -/
def httpAddHeader (cap : Nat) (block arg : List UInt8) : Option (List UInt8) :=
  if cap = 0 then none
  else
    match headerLine arg with
    | none => none
    | some line => if block.length + (line.length + 2) + 1 > cap then none else some (block ++ line ++ [cr, lf])

/-- The arguments one after the other. -/
def addHeaders (cap : Nat) (block : List UInt8) : List (List UInt8) → Option (List UInt8)
  | [] => some block
  | arg :: rest => (httpAddHeader cap block arg).bind fun block => addHeaders cap block rest

/-! ### What a server reads -/

/-- The lines of a request, each up to its CR LF.  A CR or an LF elsewhere is refused, and the empty line ends the
text. -/
def readLines (line : List UInt8) : List UInt8 → Option (List (List UInt8))
  | [] => none
  | [_] => none
  | c :: d :: rest =>
    if c = cr ∧ d = lf then
      if line = [] then (if rest = [] then some [] else none) else (readLines [] rest).map (line :: ·)
    else if c = cr ∨ c = lf then none
    else readLines (line ++ [c]) (d :: rest)

/-- The text has no line ends. -/
def Plain (s : List UInt8) : Prop := cr ∉ s ∧ lf ∉ s

/-- The lines that were asked for. -/
def requestLines {σ : Type} (u : HttpUrl) (o : FetchOpts σ) (args : List (List UInt8)) : List (List UInt8) :=
  [methodOr o.method ++ space :: (u.path ++ space :: ascii "HTTP/1.1"), ascii "Host: " ++ u.host,
    ascii "User-Agent: " ++ o.userAgent.getD (ascii "RPCortex/2.0"), ascii "Accept-Encoding: identity",
    ascii "Connection: close"] ++ args.filterMap headerLine ++
  if o.bodyLen = 0 then []
  else (if blockHasHeader (o.headers.getD []) (ascii "content-type") then []
      else [ascii "Content-Type: application/x-www-form-urlencoded"]) ++
    [ascii "Content-Length: " ++ decimal o.bodyLen.toNat]

/-- A request is what was asked for: it is read as these lines, and the first one as its three parts. -/
def Exact {σ : Type} (u : HttpUrl) (o : FetchOpts σ) (args : List (List UInt8)) (text : List UInt8) : Prop :=
  readLines [] text = some (requestLines u o args) ∧
    (methodOr o.method ++ space :: (u.path ++ space :: ascii "HTTP/1.1")).splitOn space =
      [methodOr o.method, u.path, ascii "HTTP/1.1"]

variable {σ : Type} {o : FetchOpts σ} {u : HttpUrl} {s t line block arg text : List UInt8}
  {lines args : List (List UInt8)} {cap : Nat}

/-- Lines on the wire. -/
def onWire (lines : List (List UInt8)) : List UInt8 := lines.flatMap fun line => line ++ [cr, lf]

theorem readLines_line (plain : Plain s) (rest : List UInt8) : readLines line (s ++ cr :: lf :: rest) =
    if line ++ s = [] then (if rest = [] then some [] else none)
    else (readLines [] rest).map fun rest => (line ++ s) :: rest := by
  induction s generalizing line with
  | nil => rw [List.nil_append, readLines, if_pos ⟨rfl, rfl⟩, List.append_nil]
  | cons c s ih =>
    have other : ¬(c = cr ∨ c = lf) := by
      rintro (rfl | rfl)
      · exact plain.1 List.mem_cons_self
      · exact plain.2 List.mem_cons_self
    have later : Plain s := ⟨fun mem => plain.1 (List.mem_cons_of_mem _ mem), fun mem => plain.2 (List.mem_cons_of_mem _ mem)⟩
    have step : readLines line (c :: (s ++ cr :: lf :: rest)) = readLines (line ++ [c]) (s ++ cr :: lf :: rest) := by
      obtain ⟨d, more, eq⟩ : ∃ d more, s ++ cr :: lf :: rest = d :: more := by
        cases s with
        | nil => exact ⟨_, _, rfl⟩
        | cons d s => exact ⟨_, _, rfl⟩
      rw [eq, readLines, if_neg fun both => other (.inl both.1), if_neg other]
    rw [List.cons_append, step, ih later, List.append_assoc, List.singleton_append]

theorem readLines_onWire (plain : ∀ line ∈ lines, Plain line) (some_ : ∀ line ∈ lines, line ≠ []) :
    readLines [] (onWire lines ++ [cr, lf]) = some lines := by
  induction lines with
  | nil => rfl
  | cons line lines ih =>
    have text : onWire (line :: lines) ++ [cr, lf] = line ++ cr :: lf :: (onWire lines ++ [cr, lf]) := by
      simp [onWire]
    rw [text, readLines_line (plain line List.mem_cons_self), List.nil_append, if_neg (some_ line List.mem_cons_self),
      ih (fun l mem => plain l (List.mem_cons_of_mem _ mem)) fun l mem => some_ l (List.mem_cons_of_mem _ mem)]
    rfl

/-- What is read has no line ends in it. -/
theorem plain_of_readLines (plain : Plain line) (reads : readLines line text = some lines) :
    ∀ l ∈ lines, Plain l := by
  induction line, text using readLines.induct generalizing lines with
  | case1 => cases reads
  | case2 => cases reads
  | case3 c d both =>
    rw [readLines, if_pos both, if_pos rfl, if_pos rfl] at reads
    cases reads
    exact fun _ mem => nomatch mem
  | case4 c d rest both more =>
    rw [readLines, if_pos both, if_pos rfl, if_neg more] at reads
    cases reads
  | case5 line c d rest both some_ ih =>
    rw [readLines, if_pos both, if_neg some_] at reads
    obtain ⟨more, later, rfl⟩ := Option.map_eq_some_iff.mp reads
    intro l mem
    rcases List.mem_cons.mp mem with rfl | mem
    · exact plain
    · exact ih ⟨List.not_mem_nil, List.not_mem_nil⟩ later l mem
  | case6 line c d rest no ends =>
    rw [readLines, if_neg no, if_pos ends] at reads
    cases reads
  | case7 line c d rest no ends ih =>
    rw [readLines, if_neg no, if_neg ends] at reads
    obtain ⟨notCr, notLf⟩ := not_or.mp ends
    refine ih ⟨fun mem => ?_, fun mem => ?_⟩ reads
    · rcases List.mem_append.mp mem with mem | mem
      · exact plain.1 mem
      · exact notCr (List.mem_singleton.mp mem).symm
    · rcases List.mem_append.mp mem with mem | mem
      · exact plain.2 mem
      · exact notLf (List.mem_singleton.mp mem).symm

theorem plain_append : Plain (s ++ t) ↔ Plain s ∧ Plain t := by
  simp only [Plain, List.mem_append, not_or]
  tauto

theorem plain_ascii : Plain (ascii "Host: ") ∧ Plain (ascii "User-Agent: ") ∧ Plain (ascii "Accept-Encoding: identity") ∧
    Plain (ascii "Connection: close") ∧ Plain (ascii "HTTP/1.1") ∧ Plain (ascii ": ") ∧ Plain (ascii "Content-Length: ") ∧
    Plain (ascii "Content-Type: application/x-www-form-urlencoded") := by
  unfold Plain
  decide

theorem plain_of_sublist (sub : List.Sublist s t) (plain : Plain t) : Plain s :=
  ⟨fun mem => plain.1 (sub.subset mem), fun mem => plain.2 (sub.subset mem)⟩

/-- A line that `http_add_header` makes has no line ends, and a name. -/
theorem headerLine_plain (made : headerLine arg = some line) : Plain line ∧ line ≠ [] := by
  unfold headerLine at made
  split at made
  · cases made
  rename_i plain
  dsimp only at made
  split at made
  · cases made
  split at made
  · cases made
  rename_i some_
  obtain rfl := Option.some.inj made
  have whole : Plain arg := not_or.mp plain
  have front : Plain (arg.dropWhile isBlank) := plain_of_sublist (List.dropWhile_sublist _) whole
  refine ⟨plain_append.mpr ⟨plain_append.mpr ⟨?_, plain_ascii.2.2.2.2.2.1⟩, ?_⟩, fun no => some_ ?_⟩
  · exact plain_of_sublist ((List.rdropWhile_prefix _ _).sublist.trans (List.takeWhile_sublist _)) front
  · exact plain_of_sublist ((List.rdropWhile_prefix _ _).sublist.trans ((List.dropWhile_sublist _).trans
      ((List.drop_sublist _ _).trans (List.dropWhile_sublist _)))) front
  · exact (List.append_eq_nil_iff.mp (List.append_eq_nil_iff.mp no).1).1

theorem addHeaders_lines (added : addHeaders cap block args = some text) :
    text = block ++ onWire (args.filterMap headerLine) := by
  induction args generalizing block with
  | nil =>
    obtain rfl := Option.some.inj added
    rw [List.filterMap_nil]
    exact (List.append_nil _).symm
  | cons arg args ih =>
    obtain ⟨next, one, rest⟩ := Option.bind_eq_some_iff.mp added
    unfold httpAddHeader at one
    split at one
    · cases one
    split at one
    · cases one
    rename_i line made
    split at one
    · cases one
    obtain rfl := Option.some.inj one
    rw [ih rest, List.filterMap_cons_some made]
    simp [onWire]

theorem decimal_plain (n : Nat) : Plain (decimal n) := by
  suffices digits : ∀ c ∈ decimal n, 0x30 ≤ c from
    ⟨fun mem => absurd (digits _ mem) (by decide), fun mem => absurd (digits _ mem) (by decide)⟩
  intro b digit
  obtain ⟨c, mem, rfl⟩ := List.mem_map.mp digit
  rw [Nat.toString_eq_repr, Nat.toList_repr] at mem
  have isDigit := Nat.isDigit_of_mem_toDigits (by omega) (by omega) mem
  simp only [Char.isDigit, Bool.and_eq_true, decide_eq_true_eq] at isDigit
  obtain ⟨low, high⟩ := isDigit
  rw [ge_iff_le, UInt32.le_iff_toNat_le] at low
  rw [UInt32.le_iff_toNat_le] at high
  rw [UInt8.le_iff_toNat_le]
  have byte : c.toNat.toUInt8.toNat = c.val.toNat % 256 := UInt8.toNat_ofNat'
  rw [byte]
  have first : (0x30 : UInt8).toNat = 48 := rfl
  have char : '0'.val.toNat = 48 ∧ '9'.val.toNat = 57 := by decide
  omega

theorem ends_ascii : ascii " " = [space] ∧
    ascii " HTTP/1.1\r\nHost: " = space :: ascii "HTTP/1.1" ++ ([cr, lf] ++ ascii "Host: ") ∧
    ascii "\r\nUser-Agent: " = [cr, lf] ++ ascii "User-Agent: " ∧
    ascii "\r\nAccept-Encoding: identity\r\nConnection: close\r\n" =
      [cr, lf] ++ (ascii "Accept-Encoding: identity" ++ [cr, lf]) ++ (ascii "Connection: close" ++ [cr, lf]) ∧
    ascii "Content-Type: application/x-www-form-urlencoded\r\n" =
      ascii "Content-Type: application/x-www-form-urlencoded" ++ [cr, lf] ∧
    ascii "\r\n" = [cr, lf] := by
  decide

/-- The text of a request is its lines. -/
theorem httpBuildRequestEx_lines (added : addHeaders cap [] args = some (o.headers.getD [])) {room : Nat}
    (built : httpBuildRequestEx room u o = some text) : text = onWire (requestLines u o args) ++ [cr, lf] := by
  have block := addHeaders_lines added
  rw [List.nil_append] at block
  obtain ⟨blank, host, agent, fixed, kind, ends⟩ := ends_ascii
  have shape : ∀ a b : List UInt8, (if room ≤ a.length then none else if room ≤ (a ++ b).length then none
      else if room ≤ (a ++ b).length + 2 then none else some (a ++ b ++ ascii "\r\n")) = some text →
        text = a ++ b ++ ascii "\r\n" := by
    intro a b built
    split at built
    · cases built
    split at built
    · cases built
    split at built
    · cases built
    exact (Option.some.inj built).symm
  rw [shape _ _ built]
  rw [blank, host, agent, fixed, kind, ends]
  unfold requestLines onWire
  simp only [List.flatMap_append, List.flatMap_cons, List.flatMap_nil, List.append_nil]
  rw [← onWire, ← block]
  by_cases empty : o.bodyLen = 0
  · rw [if_pos empty, if_pos empty]
    simp
  · rw [if_neg empty, if_neg empty]
    by_cases typed : blockHasHeader (o.headers.getD []) (ascii "content-type") = true
    · rw [if_pos typed, if_pos typed]
      simp
    · rw [if_neg typed, if_neg typed]
      simp

theorem plain_requestLines : (∀ line ∈ requestLines u o args, Plain line) ↔
    Plain (methodOr o.method) ∧ Plain u.path ∧ Plain u.host ∧ Plain (o.userAgent.getD (ascii "RPCortex/2.0")) := by
  obtain ⟨host, agent, encoding, close, version, _, size, kind⟩ := plain_ascii
  have blank : ∀ s, Plain (space :: s) ↔ Plain s := fun s => by
    simp [Plain, space, cr, lf]
  constructor
  · intro all
    have first : Plain (methodOr o.method ++ space :: (u.path ++ space :: ascii "HTTP/1.1")) :=
      all _ (by simp [requestLines])
    have second : Plain (ascii "Host: " ++ u.host) := all _ (by simp [requestLines])
    have third : Plain (ascii "User-Agent: " ++ o.userAgent.getD (ascii "RPCortex/2.0")) :=
      all _ (by simp [requestLines])
    rw [plain_append, blank, plain_append] at first
    exact ⟨first.1, first.2.1, (plain_append.mp second).2, (plain_append.mp third).2⟩
  · rintro ⟨method, path, name, browser⟩ line mem
    simp only [requestLines, List.mem_append, List.mem_cons, List.not_mem_nil, or_false] at mem
    rcases mem with ((rfl | rfl | rfl | rfl | rfl) | mem) | mem
    · exact plain_append.mpr ⟨method, (blank _).mpr (plain_append.mpr ⟨path, (blank _).mpr version⟩)⟩
    · exact plain_append.mpr ⟨host, name⟩
    · exact plain_append.mpr ⟨agent, browser⟩
    · exact encoding
    · exact close
    · obtain ⟨arg, _, made⟩ := List.mem_filterMap.mp mem
      exact (headerLine_plain made).1
    · split at mem
      · exact absurd mem List.not_mem_nil
      rcases List.mem_append.mp mem with mem | mem
      · split at mem
        · exact absurd mem List.not_mem_nil
        · exact List.mem_singleton.mp mem ▸ kind
      · exact List.mem_singleton.mp mem ▸ plain_append.mpr ⟨size, decimal_plain _⟩

theorem requestLines_some : ∀ line ∈ requestLines u o args, line ≠ [] := by
  have texts : ascii "Host: " ≠ [] ∧ ascii "User-Agent: " ≠ [] ∧ ascii "Accept-Encoding: identity" ≠ [] ∧
      ascii "Connection: close" ≠ [] ∧ ascii "Content-Length: " ≠ [] ∧
      ascii "Content-Type: application/x-www-form-urlencoded" ≠ [] := by decide
  obtain ⟨host, agent, encoding, close, size, kind⟩ := texts
  intro line mem
  simp only [requestLines, List.mem_append, List.mem_cons, List.not_mem_nil, or_false] at mem
  rcases mem with ((rfl | rfl | rfl | rfl | rfl) | mem) | mem
  · exact List.append_ne_nil_of_right_ne_nil _ (List.cons_ne_nil _ _)
  · exact List.append_ne_nil_of_left_ne_nil host _
  · exact List.append_ne_nil_of_left_ne_nil agent _
  · exact encoding
  · exact close
  · obtain ⟨arg, _, made⟩ := List.mem_filterMap.mp mem
    exact (headerLine_plain made).2
  · split at mem
    · exact absurd mem List.not_mem_nil
    rcases List.mem_append.mp mem with mem | mem
    · split at mem
      · exact absurd mem List.not_mem_nil
      · exact List.mem_singleton.mp mem ▸ kind
    · exact List.mem_singleton.mp mem ▸ List.append_ne_nil_of_left_ne_nil size _

theorem not_mem_of_splitOn (one : (s.splitOn space).length = 1) : space ∉ s := by
  intro mem
  obtain ⟨front, rest, rfl⟩ := List.append_of_mem mem
  rw [List.splitOn_append_cons_self, List.length_append] at one
  have first := List.length_pos_iff.mpr (List.splitOn_ne_nil space front)
  have second := List.length_pos_iff.mpr (List.splitOn_ne_nil space rest)
  omega

/-- The method and the name of the program are one word and one line. -/
def PlainOpts (o : FetchOpts σ) : Prop :=
  (Plain (methodOr o.method) ∧ space ∉ methodOr o.method) ∧ Plain (o.userAgent.getD (ascii "RPCortex/2.0"))

/-- Two spaces split a line in its three parts when the parts have none. -/
theorem splitOn_parts (version : space ∉ line) :
    (s ++ space :: (t ++ space :: line)).splitOn space = [s, t, line] ↔ space ∉ s ∧ space ∉ t := by
  constructor
  · intro split
    have size := congrArg List.length split
    rw [List.splitOn_append_cons_self, List.splitOn_append_cons_self, List.length_append, List.length_append] at size
    have first := List.length_pos_iff.mpr (List.splitOn_ne_nil space s)
    have second := List.length_pos_iff.mpr (List.splitOn_ne_nil space t)
    have third := List.length_pos_iff.mpr (List.splitOn_ne_nil space line)
    simp only [List.length_cons, List.length_nil] at size
    exact ⟨not_mem_of_splitOn (by omega), not_mem_of_splitOn (by omega)⟩
  · rintro ⟨first, second⟩
    rw [List.splitOn_append_cons_self_of_not_mem first, List.splitOn_append_cons_self_of_not_mem second,
      List.splitOn_eq_singleton version]

/-- A request is what was asked for when no part that is pasted into it has a line end, and the parts of its first
line have no space. -/
theorem exact_iff (added : addHeaders cap [] args = some (o.headers.getD [])) {room : Nat}
    (built : httpBuildRequestEx room u o = some text) : Exact u o args text ↔
      PlainOpts o ∧ Plain u.host ∧ Plain u.path ∧ space ∉ u.path := by
  have version : space ∉ ascii "HTTP/1.1" := by decide
  have lines : readLines [] text = some (requestLines u o args) ↔
      ∀ line ∈ requestLines u o args, Plain line := by
    constructor
    · exact plain_of_readLines ⟨List.not_mem_nil, List.not_mem_nil⟩
    · intro plain
      rw [httpBuildRequestEx_lines added built, readLines_onWire plain requestLines_some]
  rw [Exact, lines, plain_requestLines, splitOn_parts version, PlainOpts]
  tauto

theorem portLoop_text {v n : Nat} (read : portLoop v s = some (n, t)) :
    ∃ digits, s = digits ++ t ∧ ∀ c ∈ digits, 0x30 ≤ c ∧ c ≤ 0x3A := by
  induction s generalizing v with
  | nil =>
    cases read
    exact ⟨[], rfl, fun _ mem => nomatch mem⟩
  | cons c s ih =>
    rw [portLoop] at read
    split at read
    · rename_i digit
      split at read
      · cases read
      obtain ⟨digits, rfl, all⟩ := ih read
      refine ⟨c :: digits, rfl, fun d mem => ?_⟩
      rcases List.mem_cons.mp mem with rfl | mem
      · exact ⟨digit.1, UInt8.le_trans digit.2 (by decide)⟩
      · exact all d mem
    · cases read
      exact ⟨[], rfl, fun _ mem => nomatch mem⟩

theorem portOf_text {port n : Nat} (read : portOf port s = some (n, t)) :
    ∃ front, s = front ++ t ∧ ∀ c ∈ front, 0x30 ≤ c ∧ c ≤ 0x3A := by
  unfold portOf at read
  split at read
  · rename_i digits
    split at read
    · cases read
    rename_i v rest loop
    split at read
    · cases read
    obtain ⟨-, rfl⟩ := Prod.mk.inj (Option.some.inj read)
    obtain ⟨front, rfl, all⟩ := portLoop_text loop
    refine ⟨0x3A :: front, rfl, fun c mem => ?_⟩
    rcases List.mem_cons.mp mem with rfl | mem
    · decide
    · exact all c mem
  · obtain ⟨-, rfl⟩ := Prod.mk.inj (Option.some.inj read)
    exact ⟨[], rfl, fun _ mem => nomatch mem⟩

theorem copyBounded_eq_some {room : Nat} (copied : copyBounded room s = some t) : t = s := by
  unfold copyBounded at copied
  split at copied
  · cases copied
  · exact (Option.some.inj copied).symm

/-- The text of a URL: its scheme, its host, its port and its path, where only the path may be missing. -/
theorem httpParseUrl_text {url : List UInt8} (parsed : httpParseUrl url = some u) : ∃ scheme front rest,
    url = scheme ++ (u.host ++ (front ++ rest)) ∧ (scheme = ascii "http://" ∨ scheme = ascii "https://") ∧
      (∀ c ∈ u.host, endsHost c = false) ∧ u.host ≠ [] ∧ (∀ c ∈ front, 0x30 ≤ c ∧ c ≤ 0x3A) ∧
        (rest = [] ∧ u.path = [0x2F] ∨ rest = u.path ∧ u.path.head? = some 0x2F) := by
  unfold httpParseUrl at parsed
  split at parsed
  · cases parsed
  rename_i tls port p scheme
  have front : ∃ scheme, url = scheme ++ p ∧ (scheme = ascii "http://" ∨ scheme = ascii "https://") := by
    unfold schemeOf at scheme
    split at scheme
    · rename_i plain
      obtain rfl := (Prod.mk.inj (Prod.mk.inj (Option.some.inj scheme)).2).2
      exact ⟨url.take 7, (List.take_append_drop 7 url).symm, .inl plain⟩
    split at scheme
    · rename_i plain
      obtain rfl := (Prod.mk.inj (Prod.mk.inj (Option.some.inj scheme)).2).2
      exact ⟨url.take 8, (List.take_append_drop 8 url).symm, .inr plain⟩
    · cases scheme
  obtain ⟨first, rfl, known⟩ := front
  dsimp only at parsed
  have parts := List.takeWhile_append_dropWhile (p := fun c => !endsHost c) (l := p)
  have inHost : ∀ c ∈ p.takeWhile fun c => !endsHost c, endsHost c = false := fun c mem => by
    simpa using List.mem_takeWhile_imp mem
  split at parsed
  · cases parsed
  split at parsed
  · cases parsed
  rename_i some_
  split at parsed
  · rename_i host port hostIs portIs
    obtain rfl := Option.some.inj parsed
    obtain rfl := copyBounded_eq_some hostIs
    obtain ⟨digits, behind, all⟩ := portOf_text portIs
    exact ⟨first, digits, [], by rw [← behind, parts], known, inHost, some_, all, .inl ⟨rfl, rfl⟩⟩
  · rename_i host port c rest hostIs portIs
    split at parsed
    · cases parsed
    rename_i slash
    obtain ⟨path, pathIs, rfl⟩ := Option.map_eq_some_iff.mp parsed
    obtain rfl := copyBounded_eq_some hostIs
    obtain rfl := copyBounded_eq_some pathIs
    obtain ⟨digits, behind, all⟩ := portOf_text portIs
    exact ⟨first, digits, c :: rest, by rw [← behind, parts], known, inHost, some_, all,
      .inr ⟨rfl, congrArg some (not_not.mp slash)⟩⟩
  · cases parsed

theorem plain_url {url : List UInt8} (parsed : httpParseUrl url = some u) :
    Plain url ↔ Plain u.host ∧ Plain u.path := by
  obtain ⟨scheme, front, rest, rfl, known, -, -, digits, path⟩ := httpParseUrl_text parsed
  have first : Plain scheme := by
    unfold Plain
    rcases known with rfl | rfl <;> decide
  have second : Plain front :=
    ⟨fun mem => absurd (digits _ mem).1 (by decide), fun mem => absurd (digits _ mem).1 (by decide)⟩
  have last : Plain rest ↔ Plain u.path := by
    rcases path with ⟨rfl, path⟩ | ⟨rfl, -⟩
    · rw [path]
      unfold Plain
      decide
    · rfl
  rw [plain_append, plain_append, plain_append, last]
  tauto

theorem target_url {url : List UInt8} (parsed : httpParseUrl url = some u) :
    space ∉ (url.drop 8).dropWhile (· ≠ 0x2F) ↔ space ∉ u.path := by
  obtain ⟨scheme, front, rest, rfl, known, host, some_, digits, path⟩ := httpParseUrl_text parsed
  have behind : ∃ h, (∀ c ∈ h, c ∈ u.host) ∧
      (scheme ++ (u.host ++ (front ++ rest))).drop 8 = h ++ (front ++ rest) := by
    rcases known with rfl | rfl
    · obtain ⟨c, h, eq⟩ := List.exists_cons_of_ne_nil some_
      rw [eq]
      exact ⟨h, fun c mem => List.mem_cons_of_mem _ mem, rfl⟩
    · exact ⟨u.host, fun _ mem => mem, rfl⟩
  obtain ⟨h, sub, eq⟩ := behind
  have noSlash : ∀ c ∈ h ++ front, c ≠ 0x2F := by
    rintro c mem rfl
    rcases List.mem_append.mp mem with mem | mem
    · exact absurd (host _ (sub _ mem)) (by decide)
    · exact absurd (digits _ mem).1 (by decide)
  rw [eq, ← List.append_assoc, List.dropWhile_append_of_pos fun c mem => decide_eq_true (noSlash c mem)]
  rcases path with ⟨rfl, path⟩ | ⟨rfl, slash⟩
  · rw [path]
    decide
  · obtain ⟨more, eq⟩ := List.head?_eq_some_iff.mp slash
    rw [eq]
    rfl

/-- A request is what the caller asked for and nothing more exactly when the URL has no line end in it and no space
behind its host; for a path that a server redirects to, the path must have neither.  What else is pasted into the text
is the method and the name of the program. -/
theorem request_exact_iff (added : addHeaders cap [] args = some (o.headers.getD [])) {room : Nat}
    (built : httpBuildRequestEx room u o = some text) :
    (∀ url, httpParseUrl url = some u →
      (Exact u o args text ↔ PlainOpts o ∧ Plain url ∧ space ∉ (url.drop 8).dropWhile (· ≠ 0x2F))) ∧
    ∀ u₀ location, httpResolveRedirect u₀ location = some u → location.head? = some 0x2F →
      (Exact u o args text ↔ PlainOpts o ∧ Plain u₀.host ∧ Plain location ∧ space ∉ location) := by
  constructor
  · intro url parsed
    rw [exact_iff added built, plain_url parsed, target_url parsed, and_assoc]
  · intro u₀ location resolved slash
    have relative : u = { u₀ with path := location } := by
      unfold httpResolveRedirect at resolved
      split at resolved
      · cases resolved
      split at resolved
      · rename_i absolute
        obtain ⟨rest, rfl⟩ := List.head?_eq_some_iff.mp slash
        rcases absolute with absolute | absolute <;> exact absurd (List.cons.inj absolute).1 (by decide)
      split at resolved
      · cases resolved
      obtain ⟨path, pathIs, rfl⟩ := Option.map_eq_some_iff.mp resolved
      rw [copyBounded_eq_some pathIs]
    subst relative
    exact exact_iff added built

/-- Options with one header. -/
def plainOpts : FetchOpts Unit := { headers := some (ascii "X: 1\r\n") }

theorem request_exact_iff_plain : Exact ⟨false, ascii "a", 80, ascii "/x"⟩ plainOpts [ascii "X:1"]
    (ascii ("GET /x HTTP/1.1\r\nHost: a\r\nUser-Agent: RPCortex/2.0\r\n" ++
      "Accept-Encoding: identity\r\nConnection: close\r\nX: 1\r\n\r\n")) := by
  refine ((request_exact_iff
    (show addHeaders 320 [] [ascii "X:1"] = some (plainOpts.headers.getD []) by decide)
    (show httpBuildRequestEx 1024 _ plainOpts = some _ by decide)).1 (ascii "http://a/x") (by decide)).mpr ?_
  unfold PlainOpts Plain
  decide

theorem not_all_requests_exact : ¬∀ (url : List UInt8) (u : HttpUrl) (o : FetchOpts Unit) (args : List (List UInt8))
    (cap room : Nat) (text : List UInt8), httpParseUrl url = some u →
      addHeaders cap [] args = some (o.headers.getD []) → httpBuildRequestEx room u o = some text →
        Exact u o args text := by
  intro all
  have exact := all (ascii "http://a/x\r\nEvil: 1") ⟨false, ascii "a", 80, ascii "/x\r\nEvil: 1"⟩ {} [] 320 1024
    (ascii ("GET /x\r\nEvil: 1 HTTP/1.1\r\nHost: a\r\nUser-Agent: RPCortex/2.0\r\n" ++
      "Accept-Encoding: identity\r\nConnection: close\r\n\r\n")) (by decide) rfl (by decide)
  exact absurd exact.1 (by decide)

end RPCortex.Http
