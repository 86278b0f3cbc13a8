import RPCortex.Httpd.Site

/-! The links of a directory page.  A path is escaped for the page that it is written into, and the browser undoes
that; nobody escapes it for the URL that it is written into as well, while the server undoes such escapes.  So a link
leads back to its path unless there is something to undo in the path itself, or it is cut at a buffer. -/

namespace RPCortex.Httpd

open Lib

/-! ### The browser -/

/-- The bytes that may stand in a URL. -/
def legal (c : UInt8) : Bool :=
  0x41 ≤ c && c ≤ 0x5A || 0x61 ≤ c && c ≤ 0x7A || 0x30 ≤ c && c ≤ 0x39 || c ∈ ascii "-._~:/?#[]@!$&'()*+,;=%"

/-- The digit for a half of a byte. -/
def hexDigit (n : UInt8) : UInt8 := if n < 10 then 0x30 + n else 0x41 + (n - 10)

/-- A byte that is not legal in a URL, encoded. -/
def percentEncode (s : List UInt8) : List UInt8 :=
  s.flatMap fun c => if legal c then [c] else [0x25, hexDigit (c >>> 4), hexDigit (c &&& 0x0F)]

/-- The text of an attribute with the references that `s_cat_html` writes undone. -/
def unescape : List UInt8 → List UInt8
  | 0x26 :: 0x6C :: 0x74 :: 0x3B :: s => 0x3C :: unescape s
  | 0x26 :: 0x67 :: 0x74 :: 0x3B :: s => 0x3E :: unescape s
  | 0x26 :: 0x61 :: 0x6D :: 0x70 :: 0x3B :: s => 0x26 :: unescape s
  | 0x26 :: 0x71 :: 0x75 :: 0x6F :: 0x74 :: 0x3B :: s => 0x22 :: unescape s
  | 0x26 :: 0x23 :: 0x33 :: 0x39 :: 0x3B :: s => 0x27 :: unescape s
  | c :: s => c :: unescape s
  | [] => []

/-- The target of the request that follows a link: what is behind a `#` stays with the browser. -/
def targetOf (href : List UInt8) : List UInt8 := percentEncode ((unescape href).takeWhile (· ≠ 0x23))

/-- The attribute of the link in a row. -/
def hrefOf (row : List UInt8) : List UInt8 :=
  (row.drop (ascii "<tr><td><a href=\"").length).takeWhile (· ≠ 0x22)

/-- A request. -/
def requestFor (target : List UInt8) : List UInt8 := ascii "GET " ++ (target ++ ascii " HTTP/1.1\r\n\r\n")

/-- What a program gives over a connection that takes everything, and what is sent. -/
def deliver {α : Type} (world : Call → Answer) : Serves α → α × List UInt8
  | .ret a => (a, [])
  | .ask c go =>
    match c with
    | .send data =>
      let r := deliver world (go ⟨data.length, [], false, 0⟩)
      (r.1, data ++ r.2)
    | c => deliver world (go (world c))

/-- A directory and a name in it, joined. -/
def joined (path name : List UInt8) : List UInt8 :=
  path ++ (if path ≠ [] ∧ path.getLast? ≠ some slash then [slash] else []) ++ name

example : unescape [0x61] = [0x61] := by simp [unescape]

/-! ### Decoding what was encoded -/

/-- The string has no `%` with two hexadecimal digits behind it. -/
def NoEscape : List UInt8 → Prop
  | [] => True
  | c :: s => (c = 0x25 → ¬((hexval (s.getD 0 0)).isSome ∧ (hexval (s.getD 1 0)).isSome)) ∧ NoEscape s

instance instDecidableNoEscape : (s : List UInt8) → Decidable (NoEscape s)
  | [] => .isTrue trivial
  | _ :: s => @instDecidableAnd _ _ _ (instDecidableNoEscape s)

/-- Nothing in the string is undone by the server. -/
def Literal (s : List UInt8) : Prop := 0x23 ∉ s ∧ 0x26 ∉ s ∧ 0x2B ∉ s ∧ NoEscape s

instance (s : List UInt8) : Decidable (Literal s) := inferInstanceAs (Decidable (_ ∧ _ ∧ _ ∧ _))

variable {c hi lo : UInt8} {s t p : List UInt8} {m room : Nat}

theorem hexval_hexDigit {n : UInt8} (lt : n < 16) : hexval (hexDigit n) = some n := by
  have all : ∀ k : Fin 16, hexval (hexDigit (UInt8.ofNat k)) = some (UInt8.ofNat k) := by decide
  have here := all ⟨n.toNat, UInt8.lt_iff_toNat_lt.mp lt⟩
  rwa [UInt8.ofNat_toNat] at here

theorem halves (c : UInt8) : c >>> 4 < 16 ∧ c &&& 0x0F < 16 ∧ (c >>> 4) <<< 4 ||| (c &&& 0x0F) = c := by
  have small := c.toNat_lt
  have high : (c >>> 4).toNat = c.toNat / 16 := by
    rw [UInt8.toNat_shiftRight]
    exact Nat.shiftRight_eq_div_pow _ 4
  have low : (c &&& 0x0F).toNat = c.toNat % 16 := by
    rw [UInt8.toNat_and]
    exact Nat.and_two_pow_sub_one_eq_mod _ 4
  refine ⟨UInt8.lt_iff_toNat_lt.mpr ?_, UInt8.lt_iff_toNat_lt.mpr ?_, UInt8.toNat_inj.mp ?_⟩
  · rw [high]
    exact (show c.toNat / 16 < 16 by omega)
  · rw [low]
    exact (show c.toNat % 16 < 16 by omega)
  · have shifted : (c.toNat / 16) <<< 4 % 256 = (c.toNat / 16) <<< 4 := by
      rw [Nat.shiftLeft_eq]
      omega
    rw [UInt8.toNat_or, UInt8.toNat_shiftLeft, high, low]
    show (c.toNat / 16) <<< 4 % 256 ||| c.toNat % 16 = c.toNat
    rw [shifted, ← Nat.shiftLeft_add_eq_or_of_lt (show c.toNat % 16 < 2 ^ 4 by omega), Nat.shiftLeft_eq]
    omega

theorem percentEncode_legal (h : legal c = true) : percentEncode (c :: s) = c :: percentEncode s := by
  rw [percentEncode, List.flatMap_cons, if_pos h]
  rfl

theorem percentEncode_other (h : legal c = false) :
    percentEncode (c :: s) = 0x25 :: hexDigit (c >>> 4) :: hexDigit (c &&& 0x0F) :: percentEncode s := by
  rw [percentEncode, List.flatMap_cons, h]
  rfl

/-- Two hexadecimal digits stand at the front. -/
def HexFront (s : List UInt8) : Prop := (hexval (s.getD 0 0)).isSome ∧ (hexval (s.getD 1 0)).isSome

theorem not_hex_zero : ¬(hexval 0).isSome := by decide

theorem not_hexFront_one (c : UInt8) : ¬HexFront [c] := fun front => not_hex_zero front.2

/-- A byte that stands for itself, or for a space. -/
theorem decodeInto_plain (plain : c = 0x25 → ¬HexFront s) :
    decodeInto (room + 1) (c :: s) = (if c = 0x2B then 0x20 else c) :: decodeInto room s := by
  rw [decodeInto]
  split
  · rename_i first second
    split at first
    · rename_i percent
      exact absurd ⟨first ▸ rfl, second ▸ rfl⟩ (plain percent)
    · cases first
  · rfl

theorem decodeInto_hex {x y : UInt8} (first : hexval x = some hi) (second : hexval y = some lo) :
    decodeInto (room + 1) (0x25 :: x :: y :: s) = (hi <<< 4 ||| lo) :: decodeInto room s := by
  rw [decodeInto, if_pos rfl]
  simp only [List.getD_cons_zero, List.getD_cons_succ, first, second]
  rfl

theorem decodeInto_escape : decodeInto (room + 1) (0x25 :: hexDigit (c >>> 4) :: hexDigit (c &&& 0x0F) :: s) =
    c :: decodeInto room s := by
  obtain ⟨high, low, whole⟩ := halves c
  rw [decodeInto_hex (hexval_hexDigit high) (hexval_hexDigit low), whole]

theorem legal_of_hexval (hex : (hexval c).isSome) : legal c = true := by
  unfold hexval at hex
  unfold legal
  split at hex
  · rename_i digit
    simp [digit.1, digit.2]
  split at hex
  · rename_i small
    have last : c ≤ 0x7A := UInt8.le_trans small.2 (by decide)
    simp [small.1, last]
  split at hex
  · rename_i large
    have last : c ≤ 0x5A := UInt8.le_trans large.2 (by decide)
    simp [large.1, last]
  · cases hex

/-- Hexadecimal digits at the front of what is encoded are those of the string. -/
theorem hexFront_take (front : HexFront ((percentEncode s).take m)) :
    ∃ x y t, s = x :: y :: t ∧ (hexval x).isSome ∧ (hexval y).isSome ∧
      (percentEncode s).take m = x :: y :: (percentEncode t).take (m - 2) := by
  have notPercent : ¬(hexval 0x25).isSome := by decide
  have head : ∀ {s m}, (hexval (((percentEncode s).take m).getD 0 0)).isSome → ∃ x t, s = x :: t ∧
      (hexval x).isSome ∧ 0 < m ∧ (percentEncode s).take m = x :: (percentEncode t).take (m - 1) := by
    intro s m first
    cases m with
    | zero => exact absurd first not_hex_zero
    | succ m =>
      cases s with
      | nil => exact absurd first not_hex_zero
      | cons x t =>
        by_cases isLegal : legal x = true
        · rw [percentEncode_legal isLegal] at first ⊢
          exact ⟨x, t, rfl, first, Nat.succ_pos m, rfl⟩
        · rw [percentEncode_other (Bool.eq_false_iff.mpr isLegal)] at first
          exact absurd first notPercent
  obtain ⟨first, second⟩ := front
  obtain ⟨x, t, rfl, hexX, positive, eq⟩ := head first
  rw [eq, List.getD_cons_succ] at second
  obtain ⟨y, u, rfl, hexY, _, eq'⟩ := head second
  exact ⟨x, y, u, rfl, hexX, hexY, by rw [eq, eq', Nat.sub_sub]⟩

/-- Decoding gives at most a byte more than was encoded, and that only where an escape was cut. -/
theorem length_decodeInto : (decodeInto room ((percentEncode p).take m)).length ≤ p.length + 1 := by
  induction size : p.length using Nat.strongRecOn generalizing p m room with
  | ind n ih =>
  have nothing : ∀ room, decodeInto room [] = [] := fun room => by cases room <;> rfl
  cases p with
  | nil =>
    rw [show (percentEncode []).take m = [] from List.take_nil, nothing]
    exact Nat.zero_le _
  | cons c p =>
    rw [List.length_cons] at size
    cases room with
    | zero => exact Nat.zero_le _
    | succ room =>
      by_cases isLegal : legal c = true
      · rw [percentEncode_legal isLegal]
        cases m with
        | zero => exact Nat.zero_le _
        | succ m =>
          rw [List.take_succ_cons]
          by_cases escape : c = 0x25 ∧ HexFront ((percentEncode p).take m)
          · obtain ⟨rfl, front⟩ := escape
            obtain ⟨x, y, t, rfl, hexX, hexY, eq⟩ := hexFront_take front
            obtain ⟨hi, isHi⟩ := Option.isSome_iff_exists.mp hexX
            obtain ⟨lo, isLo⟩ := Option.isSome_iff_exists.mp hexY
            rw [eq, decodeInto_hex isHi isLo, List.length_cons]
            simp only [List.length_cons] at size
            have rest := @ih t.length (by omega) t (m - 2) room rfl
            omega
          · rw [decodeInto_plain fun percent front => escape ⟨percent, front⟩, List.length_cons]
            have rest := @ih p.length (by omega) p m room rfl
            omega
      · rw [percentEncode_other (Bool.eq_false_iff.mpr isLegal)]
        rcases m with _ | _ | _ | m
        · exact Nat.zero_le _
        · rw [List.take_succ_cons, List.take_zero, decodeInto_plain fun _ front => absurd front.1 (by decide), nothing]
          exact Nat.succ_le_succ (Nat.zero_le _)
        · rw [List.take_succ_cons, List.take_succ_cons, List.take_zero,
            decodeInto_plain fun _ => not_hexFront_one _, List.length_cons]
          have rest : ∀ room d, (decodeInto room [d]).length ≤ 1 := fun room d => by
            cases room with
            | zero => exact Nat.zero_le _
            | succ room =>
              rw [decodeInto_plain fun _ front => absurd front.1 (by decide), nothing]
              exact Nat.le_refl _
          have last := rest room (hexDigit (c >>> 4))
          omega
        · rw [List.take_succ_cons, List.take_succ_cons, List.take_succ_cons, decodeInto_escape, List.length_cons]
          have rest := @ih p.length (by omega) p m room rfl
          omega

theorem hexFront_percentEncode (front : HexFront s) : HexFront (percentEncode s) := by
  rcases s with _ | ⟨x, _ | ⟨y, t⟩⟩
  · exact absurd front.1 not_hex_zero
  · exact absurd front.2 not_hex_zero
  · have first : legal x = true := legal_of_hexval front.1
    have second : legal y = true := legal_of_hexval front.2
    rw [percentEncode_legal first, percentEncode_legal second]
    exact front

/-- A string that comes back is literal, and was not cut. -/
theorem literal_of_decode (back : p <+: decodeInto room ((percentEncode p).take m)) :
    0x2B ∉ p ∧ NoEscape p ∧ (percentEncode p).length ≤ m := by
  induction p generalizing m room with
  | nil => exact ⟨List.not_mem_nil, trivial, Nat.zero_le _⟩
  | cons c p ih =>
    cases room with
    | zero => exact absurd (List.prefix_nil.mp back) (List.cons_ne_nil _ _)
    | succ room =>
      by_cases isLegal : legal c = true
      · rw [percentEncode_legal isLegal] at back ⊢
        cases m with
        | zero => exact absurd (List.prefix_nil.mp back) (List.cons_ne_nil _ _)
        | succ m =>
          rw [List.take_succ_cons] at back
          by_cases escape : c = 0x25 ∧ HexFront ((percentEncode p).take m)
          · obtain ⟨rfl, front⟩ := escape
            obtain ⟨x, y, t, rfl, hexX, hexY, eq⟩ := hexFront_take front
            obtain ⟨hi, isHi⟩ := Option.isSome_iff_exists.mp hexX
            obtain ⟨lo, isLo⟩ := Option.isSome_iff_exists.mp hexY
            rw [eq, decodeInto_hex isHi isLo] at back
            have short := (List.cons_prefix_cons.mp back).2.length_le
            have most : (decodeInto room ((percentEncode t).take (m - 2))).length ≤ t.length + 1 := length_decodeInto
            simp only [List.length_cons] at short
            omega
          · rw [decodeInto_plain fun percent front => escape ⟨percent, front⟩] at back
            obtain ⟨first, rest⟩ := List.cons_prefix_cons.mp back
            obtain ⟨plus, none_, fits⟩ := ih rest
            have notPlus : c ≠ 0x2B := by
              rintro rfl
              exact absurd first (by decide)
            refine ⟨fun mem => ?_, ⟨fun percent front => escape ⟨percent, ?_⟩, none_⟩, Nat.succ_le_succ fits⟩
            · rcases List.mem_cons.mp mem with same | mem
              · exact notPlus same.symm
              · exact plus mem
            · rw [List.take_of_length_le fits]
              exact hexFront_percentEncode front
      · have other := Bool.eq_false_iff.mpr isLegal
        have notPercent : c ≠ 0x25 := fun same => isLegal (same ▸ by decide)
        have notPlus : c ≠ 0x2B := fun same => isLegal (same ▸ by decide)
        rw [percentEncode_other other] at back ⊢
        rcases m with _ | _ | _ | m
        · exact absurd (List.prefix_nil.mp back) (List.cons_ne_nil _ _)
        · rw [List.take_succ_cons, List.take_zero, decodeInto_plain fun _ front => absurd front.1 (by decide)] at back
          exact absurd (List.cons_prefix_cons.mp back).1 notPercent
        · rw [List.take_succ_cons, List.take_succ_cons, List.take_zero,
            decodeInto_plain fun _ => not_hexFront_one _] at back
          exact absurd (List.cons_prefix_cons.mp back).1 notPercent
        · rw [List.take_succ_cons, List.take_succ_cons, List.take_succ_cons, decodeInto_escape] at back
          obtain ⟨plus, none_, fits⟩ := ih (List.cons_prefix_cons.mp back).2
          refine ⟨fun mem => ?_, ⟨fun percent => absurd percent notPercent, none_⟩, ?_⟩
          · rcases List.mem_cons.mp mem with same | mem
            · exact notPlus same.symm
            · exact plus mem
          · simp only [List.length_cons]
            omega

/-- A literal string comes back. -/
theorem decode_percentEncode (plus : 0x2B ∉ p) (none_ : NoEscape p) (fits : p.length ≤ room) :
    decodeInto room (percentEncode p) = p := by
  induction p generalizing room with
  | nil => cases room <;> rfl
  | cons c p ih =>
    obtain ⟨room, rfl⟩ : ∃ r, room = r + 1 := ⟨room - 1, by rw [List.length_cons] at fits; omega⟩
    have rest := @ih room (fun mem => plus (List.mem_cons_of_mem _ mem)) none_.2 (Nat.le_of_succ_le_succ fits)
    by_cases isLegal : legal c = true
    · rw [percentEncode_legal isLegal, decodeInto_plain, rest, if_neg]
      · rintro rfl
        exact plus List.mem_cons_self
      · intro percent front
        rw [← List.take_length (l := percentEncode p)] at front
        obtain ⟨x, y, t, rfl, hexX, hexY, -⟩ := hexFront_take front
        exact none_.1 percent ⟨hexX, hexY⟩
    · rw [percentEncode_other (Bool.eq_false_iff.mpr isLegal), decodeInto_escape, rest]

/-! ### The page -/

/-- A byte of a page as `s_cat_html` writes it. -/
def escapeByte (c : UInt8) : List UInt8 :=
  if c = 0x3C then ascii "&lt;"
  else if c = 0x3E then ascii "&gt;"
  else if c = 0x26 then ascii "&amp;"
  else if c = 0x22 then ascii "&quot;"
  else if c = 0x27 then ascii "&#39;"
  else [c]

/-- The part of a page writes this text. -/
def Page.Writes (world : Call → Answer) (p : Page) (text : List UInt8) : Prop :=
  ∀ out, (deliver world (p out)).1.1 = true ∧
    (deliver world (p out)).2 ++ (deliver world (p out)).1.2 = out ++ text

section Writing

variable {world : Call → Answer} {α β : Type} {x y : Page} {text text' : List UInt8}

theorem deliver_bind {a : Serves α} {f : α → Serves β} : deliver world (a >>= f) =
    ((deliver world (f (deliver world a).1)).1, (deliver world a).2 ++ (deliver world (f (deliver world a).1)).2) := by
  induction a with
  | ret a => rfl
  | ask c go ih =>
    cases c with
    | send data =>
      show ((deliver world (go _ >>= f)).1, data ++ (deliver world (go _ >>= f)).2) = _
      rw [ih]
      exact congrArg (Prod.mk _) (List.append_assoc ..).symm
    | _ => exact ih _

theorem Page.Writes.and (first : x.Writes world text) (second : y.Writes world text') :
    (x.and y).Writes world (text ++ text') := by
  intro out
  obtain ⟨ok, sent⟩ := first out
  obtain ⟨ok', sent'⟩ := second (deliver world (x out)).1.2
  rw [Page.and, deliver_bind]
  dsimp only
  rw [if_pos ok]
  refine ⟨ok', ?_⟩
  rw [List.append_assoc, sent', ← List.append_assoc, sent, List.append_assoc]

end Writing

/-! ### Following a link -/

theorem unescape_cons (other : c ≠ 0x26) : unescape (c :: s) = c :: unescape s := by
  rw [unescape]
  · rintro t rfl
    exact absurd rfl other
  all_goals
    rintro t rfl
    exact absurd rfl other

theorem unescape_escaped (s : List UInt8) : unescape (s.flatMap escapeByte) = s := by
  induction s with
  | nil => rfl
  | cons c s ih =>
    rw [List.flatMap_cons, escapeByte]
    split
    · rename_i same
      rw [same]
      exact congrArg (0x3C :: ·) ih
    split
    · rename_i same
      rw [same]
      exact congrArg (0x3E :: ·) ih
    split
    · rename_i same
      rw [same]
      exact congrArg (0x26 :: ·) ih
    split
    · rename_i same
      rw [same]
      exact congrArg (0x22 :: ·) ih
    split
    · rename_i same
      rw [same]
      exact congrArg (0x27 :: ·) ih
    · rename_i other _ _
      rw [List.singleton_append, unescape_cons other, ih]

theorem quote_notMem_escaped (s : List UInt8) : ∀ c ∈ s.flatMap escapeByte, c ≠ 0x22 := by
  rintro c mem rfl
  obtain ⟨d, -, mem⟩ := List.mem_flatMap.mp mem
  unfold escapeByte at mem
  split at mem
  · exact absurd mem (by decide)
  split at mem
  · exact absurd mem (by decide)
  split at mem
  · exact absurd mem (by decide)
  split at mem
  · exact absurd mem (by decide)
  rename_i quote
  split at mem
  · exact absurd mem (by decide)
  · exact quote (List.mem_singleton.mp mem).symm

theorem ne_of_mem_percentEncode (h : c ∈ percentEncode s) : c ≠ 0x20 ∧ c ≠ 0x0D ∧ c ≠ 0x0A := by
  have digit : ∀ n < 16, hexDigit n ≠ 0x20 ∧ hexDigit n ≠ 0x0D ∧ hexDigit n ≠ 0x0A := by
    intro n lt
    have all : ∀ k : Fin 16, hexDigit (UInt8.ofNat k) ≠ 0x20 ∧ hexDigit (UInt8.ofNat k) ≠ 0x0D ∧
        hexDigit (UInt8.ofNat k) ≠ 0x0A := by decide
    have here := all ⟨n.toNat, UInt8.lt_iff_toNat_lt.mp lt⟩
    rwa [UInt8.ofNat_toNat] at here
  obtain ⟨d, -, mem⟩ := List.mem_flatMap.mp h
  split at mem
  · rename_i isLegal
    obtain rfl := List.mem_singleton.mp mem
    refine ⟨?_, ?_, ?_⟩
    · rintro rfl
      exact absurd isLegal (by decide)
    · rintro rfl
      exact absurd isLegal (by decide)
    · rintro rfl
      exact absurd isLegal (by decide)
  · simp only [List.mem_cons, List.not_mem_nil, or_false] at mem
    obtain ⟨high, low, -⟩ := halves d
    rcases mem with rfl | rfl | rfl
    · decide
    · exact digit _ high
    · exact digit _ low

theorem parseRequest_requestFor (clean : ∀ c ∈ t, c ≠ 0x20 ∧ c ≠ 0x0D ∧ c ≠ 0x0A) (some_ : t ≠ []) :
    parseRequest (requestFor t) pathMax = some (t.take (pathMax - 1)) := by
  have get : starts (requestFor t) (ascii "GET ") = true := List.isPrefixOf_iff_prefix.mpr (List.prefix_append _ _)
  have target : ((requestFor t).drop 4).takeWhile (fun c => c ≠ 0x20 && c ≠ 0x0D && c ≠ 0x0A) = t := by
    show (t ++ ascii " HTTP/1.1\r\n\r\n").takeWhile _ = t
    rw [List.takeWhile_append_of_pos fun c mem => by simpa [and_assoc] using clean c mem]
    exact List.append_nil t
  have left : t.take (pathMax - 1) ≠ [] := by
    cases t with
    | nil => exact absurd rfl some_
    | cons c t => exact List.cons_ne_nil _ _
  unfold parseRequest
  rw [get, target]
  exact if_neg left

theorem targetOf_row {prefix_ rest : List UInt8} (plain : ∀ c ∈ prefix_, c ≠ 0x22 ∧ c ≠ 0x26 ∧ c ≠ 0x23 ∧ legal c = true) :
    targetOf (hrefOf (ascii "<tr><td><a href=\"" ++ (prefix_ ++ (p.flatMap escapeByte ++ (ascii "\">" ++ rest))))) =
      prefix_ ++ percentEncode (p.takeWhile (· ≠ 0x23)) := by
  have href : hrefOf (ascii "<tr><td><a href=\"" ++ (prefix_ ++ (p.flatMap escapeByte ++ (ascii "\">" ++ rest)))) =
      prefix_ ++ p.flatMap escapeByte := by
    rw [hrefOf, List.drop_left, List.takeWhile_append_of_pos fun c mem => decide_eq_true (plain c mem).1,
      List.takeWhile_append_of_pos fun c mem => decide_eq_true (quote_notMem_escaped p c mem)]
    exact congrArg (prefix_ ++ ·) (List.append_nil _)
  have undone : ∀ s : List UInt8, (∀ c ∈ s, c ≠ 0x26) → unescape (s ++ p.flatMap escapeByte) = s ++ p := by
    intro s other
    induction s with
    | nil => exact unescape_escaped p
    | cons c s ih =>
      rw [List.cons_append, unescape_cons (other c List.mem_cons_self),
        ih fun d mem => other d (List.mem_cons_of_mem _ mem)]
      rfl
  have encoded : ∀ s t : List UInt8, (∀ c ∈ s, legal c = true) → percentEncode (s ++ t) = s ++ percentEncode t := by
    intro s t isLegal
    induction s with
    | nil => rfl
    | cons c s ih =>
      rw [List.cons_append, percentEncode_legal (isLegal c List.mem_cons_self),
        ih fun d mem => isLegal d (List.mem_cons_of_mem _ mem)]
      rfl
  rw [href, targetOf, undone prefix_ fun c mem => (plain c mem).2.1,
    List.takeWhile_append_of_pos fun c mem => decide_eq_true (plain c mem).2.2.1,
    encoded _ _ fun c mem => (plain c mem).2.2.2]

theorem length_le_percentEncode (s : List UInt8) : s.length ≤ (percentEncode s).length := by
  induction s with
  | nil => exact Nat.le_refl _
  | cons c s ih =>
    by_cases isLegal : legal c = true
    · rw [percentEncode_legal isLegal]
      exact Nat.succ_le_succ ih
    · rw [percentEncode_other (Bool.eq_false_iff.mpr isLegal)]
      simp only [List.length_cons]
      omega

/-- A path comes back from the server exactly when it is literal and is not cut. -/
theorem back_iff (noNul : 0 ∉ p) :
    (urlDecode pathMax ((percentEncode (p.takeWhile (· ≠ 0x23))).take 182)).takeWhile (· ≠ 0x26) = p ↔
      Literal p ∧ (percentEncode p).length ≤ 182 := by
  constructor
  · intro same
    have whole : (urlDecode pathMax ((percentEncode (p.takeWhile (· ≠ 0x23))).take 182)).takeWhile (· ≠ 0x26) <+:
        decodeInto (pathMax - 1) ((percentEncode (p.takeWhile (· ≠ 0x23))).take 182) :=
      (List.takeWhile_prefix _).trans (List.takeWhile_prefix _)
    have ends : ∀ c ∈ (urlDecode pathMax ((percentEncode (p.takeWhile (· ≠ 0x23))).take 182)).takeWhile (· ≠ 0x26),
        c ≠ 0x26 := fun c mem => by simpa using List.mem_takeWhile_imp mem
    rw [same] at whole ends
    obtain ⟨plus, none_, fits⟩ := literal_of_decode ((List.takeWhile_prefix _).trans whole)
    have long := length_le_percentEncode (p.takeWhile (· ≠ 0x23))
    rw [List.take_of_length_le fits, decode_percentEncode plus none_ (Nat.le_trans long (Nat.le_trans fits (by decide)))]
      at whole
    have all : p.takeWhile (· ≠ 0x23) = p := ((List.takeWhile_prefix _).eq_of_length_le whole.length_le)
    rw [all] at plus none_ fits
    refine ⟨⟨fun mem => ?_, fun mem => ?_, plus, none_⟩, fits⟩
    · exact absurd rfl (of_decide_eq_true (List.takeWhile_eq_self_iff.mp all _ mem))
    · exact ends _ mem rfl
  · rintro ⟨⟨fragment, separator, plus, none_⟩, fits⟩
    have all : p.takeWhile (· ≠ 0x23) = p :=
      List.takeWhile_eq_self_iff.mpr fun c mem => decide_eq_true fun same => fragment (same ▸ mem)
    have long := length_le_percentEncode p
    rw [all, List.take_of_length_le fits, urlDecode,
      decode_percentEncode plus none_ (Nat.le_trans long (Nat.le_trans fits (by decide))), cstr_of_notMem noNul]
    exact List.takeWhile_eq_self_iff.mpr fun c mem => decide_eq_true fun same => separator (same ▸ mem)

/-- What the server makes of the link in a row. -/
theorem follow {link route rest : List UInt8} (size : link.length = 9)
    (plain : ∀ c ∈ link, (c ≠ 0x22 ∧ c ≠ 0x26 ∧ c ≠ 0x23 ∧ legal c = true) ∧ c ≠ 0x20 ∧ c ≠ 0x0D ∧ c ≠ 0x0A)
    (routed : ∀ s, splitTarget (link ++ s) = (route, (urlDecode pathMax s).takeWhile (· ≠ 0x26))) (noNul : 0 ∉ p) :
    (parseRequest (requestFor (targetOf (hrefOf
      (ascii "<tr><td><a href=\"" ++ (link ++ (p.flatMap escapeByte ++ (ascii "\">" ++ rest))))))) pathMax).map
        splitTarget = some (route, p) ↔ Literal p ∧ (percentEncode p).length ≤ 182 := by
  have clean : ∀ c ∈ link ++ percentEncode (p.takeWhile (· ≠ 0x23)), c ≠ 0x20 ∧ c ≠ 0x0D ∧ c ≠ 0x0A :=
    fun c mem => (List.mem_append.mp mem).elim (fun mem => (plain c mem).2) ne_of_mem_percentEncode
  have some_ : link ++ percentEncode (p.takeWhile (· ≠ 0x23)) ≠ [] := by
    refine List.append_ne_nil_of_left_ne_nil ?_ _
    rintro rfl
    cases size
  rw [targetOf_row fun c mem => (plain c mem).1, parseRequest_requestFor clean some_, List.take_append,
    List.take_of_length_le (show link.length ≤ pathMax - 1 by rw [size]; decide), Option.map_some, routed, size,
    Option.some.injEq, Prod.mk.injEq, and_iff_right rfl]
  exact back_iff noNul

end RPCortex.Httpd
