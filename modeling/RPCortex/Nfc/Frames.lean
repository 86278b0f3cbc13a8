import Mathlib

/-! The frames of the PN532, `nfcframe.cpp`: how the answer to a command is found among what was read. -/

namespace RPCortex.Nfc

/-- `PN532_TFI_CHIP`. -/
abbrev tfiChip : UInt8 := 0xD5

/-- The loop that adds up a data field; `none` is a read outside the buffer. -/
def sumFrom (buf : List UInt8) (i : Nat) : (n : Nat) → (sum : UInt8) → Option UInt8
  | 0, sum => some sum
  | n + 1, sum => do
    let b ← buf[i]?
    sumFrom buf (i + 1) n (sum + b)

/-- What the loop of `pn532_response` does at an offset. -/
inductive Found
  | next
  | stop
  | answer (n : UInt8)
  deriving DecidableEq, Repr

/-- A pass of the loop of `pn532_response`. -/
def look (buf : List UInt8) (cmd : UInt8) (i : Nat) : Option Found := do
  if (← buf[i]?) ≠ 0x00 then return .next
  if (← buf[i + 1]?) ≠ 0xFF then return .next
  if buf.length < i + 4 then return .stop
  let n ← buf[i + 2]?
  let lcs ← buf[i + 3]?
  if n + lcs ≠ 0 then return .next
  if n < 2 then return .next
  if buf.length < i + 4 + n.toNat + 1 then return .next
  if (← buf[i + 4]?) ≠ tfiChip then return .next
  if (← buf[i + 5]?) ≠ cmd + 1 then return .next
  let sum ← sumFrom buf (i + 4) n.toNat 0
  let dcs ← buf[i + 4 + n.toNat]?
  if sum + dcs ≠ 0 then return .next
  return .answer n

/-- The loop of `pn532_response` over `k` offsets from `i` on: where the payload begins, and its length. -/
def scan (buf : List UInt8) (cmd : UInt8) (i : Nat) : (k : Nat) → Option (Option (Nat × Nat))
  | 0 => some none
  | k + 1 => do
    match ← look buf cmd i with
    | .next => scan buf cmd (i + 1) k
    | .stop => return none
    | .answer n => return some (i + 6, n.toNat - 2)

/-- `pn532_response`; the outer `none` is a read outside the buffer. -/
def pn532Response (buf : List UInt8) (cmd : UInt8) : Option (Option (Nat × Nat)) := scan buf cmd 0 (buf.length - 1)

/-! ### Frames -/

/-- An answer to the command: the data field behind the frame's two codes, and what makes the checksums right. -/
def answer (cmd : UInt8) (payload : List UInt8) : List UInt8 :=
  let n := UInt8.ofNat (payload.length + 2)
  [0x00, 0xFF, n, 0 - n, tfiChip, cmd + 1] ++ payload ++ [0 - (tfiChip + (cmd + 1) + payload.sum)]

/-- An answer with this payload stands at the offset. -/
def AnswerAt (buf : List UInt8) (cmd : UInt8) (i : Nat) (payload : List UInt8) : Prop :=
  payload.length ≤ 253 ∧ answer cmd payload <+: buf.drop i

theorem sumFrom_eq {buf : List UInt8} {i n : Nat} (room : i + n ≤ buf.length) (sum : UInt8) :
    sumFrom buf i n sum = some (sum + ((buf.drop i).take n).sum) := by
  induction n generalizing i sum with
  | zero => simp [sumFrom]
  | succ n ih =>
    have inside : i < buf.length := by omega
    rw [sumFrom, List.getElem?_eq_getElem inside, List.drop_eq_getElem_cons inside, List.take_succ_cons, List.sum_cons,
      ← add_assoc]
    exact ih (by omega) _

theorem toNat_length {payload : List UInt8} (fits : payload.length ≤ 253) :
    (UInt8.ofNat (payload.length + 2)).toNat = payload.length + 2 := by
  rw [UInt8.toNat_ofNat']
  omega

/-- The sum that makes the data checksum right. -/
def dcs (cmd : UInt8) (payload : List UInt8) : UInt8 := 0 - (tfiChip + (cmd + 1) + payload.sum)

/-- The parts of an answer in what begins at its offset. -/
theorem answerAt_iff {buf t payload : List UInt8} {cmd a b n lcs : UInt8} {i : Nat}
    (at_ : buf.drop i = a :: b :: n :: lcs :: t) :
    AnswerAt buf cmd i payload ↔
      payload.length ≤ 253 ∧ a = 0x00 ∧ b = 0xFF ∧ n = UInt8.ofNat (payload.length + 2) ∧ lcs = 0 - n ∧
        tfiChip :: (cmd + 1) :: (payload ++ [dcs cmd payload]) <+: t := by
  rw [AnswerAt, at_, answer]
  simp only [List.cons_append, List.nil_append, List.cons_prefix_cons, dcs]
  constructor
  · rintro ⟨fits, rfl, rfl, rfl, rfl, sub⟩
    exact ⟨fits, rfl, rfl, rfl, rfl, sub⟩
  · rintro ⟨fits, rfl, rfl, rfl, rfl, sub⟩
    exact ⟨fits, rfl, rfl, rfl, rfl, sub⟩

/-- A pass reads nothing outside the buffer, finds what answers are there, and stops only where none fits. -/
theorem look_spec {buf : List UInt8} {cmd : UInt8} {i : Nat} (inside : i + 2 ≤ buf.length) :
    (look buf cmd i = some .next ∧ ∀ payload, ¬AnswerAt buf cmd i payload) ∨
      (look buf cmd i = some .stop ∧ buf.length < i + 4) ∨
      ∃ payload, AnswerAt buf cmd i payload ∧ look buf cmd i = some (.answer (UInt8.ofNat (payload.length + 2))) := by
  have get : ∀ k, buf[i + k]? = (buf.drop i)[k]? := fun k => List.getElem?_drop.symm
  have len : buf.length = i + (buf.drop i).length := by rw [List.length_drop]; omega
  have get0 := get 0
  rw [Nat.add_zero] at get0
  -- what begins at the offset, byte by byte
  match at_ : buf.drop i with
  | [] | [_] => rw [at_] at len; simp at len; omega
  | a :: b :: t =>
    rw [at_] at get get0 len
    simp only [List.length_cons] at len
    have g0 : buf[i]? = some a := get0
    have g1 : buf[i + 1]? = some b := get 1
    by_cases code : a = 0x00 ∧ b = 0xFF
    swap
    · refine .inl ⟨?_, fun payload found => ?_⟩
      · simp only [look, g0, g1]
        grind
      · have := found.2
        rw [at_, answer] at this
        simp only [List.cons_append, List.cons_prefix_cons] at this
        exact code ⟨this.1.symm, this.2.1.symm⟩
    obtain ⟨rfl, rfl⟩ := code
    match t with
    | [] | [_] =>
      simp only [List.length_cons, List.length_nil] at len
      have short : buf.length < i + 4 := by omega
      exact .inr (.inl ⟨by simp only [look, g0, g1, short]; rfl, short⟩)
    | n :: lcs :: t =>
      have parts (payload : List UInt8) := @answerAt_iff buf t payload cmd 0x00 0xFF n lcs i at_
      simp only [List.length_cons] at len
      have room : ¬buf.length < i + 4 := by omega
      have g2 : buf[i + 2]? = some n := get 2
      have g3 : buf[i + 3]? = some lcs := get 3
      by_cases sums : n + lcs = 0
      swap
      · refine .inl ⟨?_, fun payload found => sums ?_⟩
        · simp only [look, g0, g1, g2, g3, room, sums, Option.bind_eq_bind, Option.bind_some, Option.pure_def, ne_eq,
            not_true_eq_false, not_false_eq_true, if_true, if_false]
        · rw [((parts payload).mp found).2.2.2.2.1]
          simp
      by_cases two : n < 2
      · refine .inl ⟨?_, fun payload found => ?_⟩
        · simp only [look, g0, g1, g2, g3, room, sums, two, Option.bind_eq_bind, Option.bind_some, Option.pure_def, ne_eq,
            not_true_eq_false, if_true, if_false]
        · have ⟨fits, _, _, size, _⟩ := (parts payload).mp found
          rw [size, UInt8.lt_iff_toNat_lt, toNat_length fits] at two
          exact absurd two (by simp)
      by_cases cut : buf.length < i + 4 + n.toNat + 1
      · refine .inl ⟨?_, fun payload found => ?_⟩
        · simp only [look, g0, g1, g2, g3, room, sums, two, cut, Option.bind_eq_bind, Option.bind_some, Option.pure_def,
            ne_eq, not_true_eq_false, if_true, if_false]
        · have ⟨fits, _, _, size, _, sub⟩ := (parts payload).mp found
          have := sub.length_le
          rw [size, toNat_length fits] at cut
          simp only [List.length_cons, List.length_append, List.length_nil] at this
          omega
      have long : 2 ≤ n.toNat := by
        rw [UInt8.lt_iff_toNat_lt] at two
        exact Nat.le_of_not_lt two
      match t with
      | [] | [_] =>
        simp only [List.length_cons, List.length_nil] at len
        omega
      | tfi :: c :: t =>
        simp only [List.length_cons] at len
        have g4 : buf[i + 4]? = some tfi := get 4
        have g5 : buf[i + 5]? = some c := get 5
        by_cases chip : tfi = tfiChip
        swap
        · refine .inl ⟨?_, fun payload found => chip ?_⟩
          · simp only [look, g0, g1, g2, g3, g4, room, sums, two, cut, chip, Option.bind_eq_bind, Option.bind_some,
              Option.pure_def, ne_eq, not_true_eq_false, not_false_eq_true, if_true, if_false]
          · exact (List.cons_prefix_cons.mp ((parts payload).mp found).2.2.2.2.2).1.symm
        by_cases code : c = cmd + 1
        swap
        · refine .inl ⟨?_, fun payload found => code ?_⟩
          · simp only [look, g0, g1, g2, g3, g4, g5, room, sums, two, cut, chip, code, Option.bind_eq_bind,
              Option.bind_some, Option.pure_def, ne_eq, not_true_eq_false, not_false_eq_true, if_true, if_false]
          · have sub := (List.cons_prefix_cons.mp ((parts payload).mp found).2.2.2.2.2).2
            exact (List.cons_prefix_cons.mp sub).1.symm
        subst chip code
        obtain ⟨m, size⟩ := Nat.exists_eq_add_of_le' long
        have held : m < t.length := by omega
        have data : sumFrom buf (i + 4) n.toNat 0 = some (tfiChip + (cmd + 1) + (t.take m).sum) := by
          rw [sumFrom_eq (by omega), ← List.drop_drop, at_, zero_add, size]
          simp [add_assoc]
        have gn : buf[i + 4 + n.toNat]? = some t[m] := by
          rw [add_assoc, get, size, show 4 + (m + 2) = m + 6 by omega]
          exact List.getElem?_eq_getElem held
        by_cases sum : tfiChip + (cmd + 1) + (t.take m).sum + t[m] = 0
        swap
        · refine .inl ⟨?_, fun payload found => sum ?_⟩
          · simp only [look, g0, g1, g2, g3, g4, g5, data, gn, room, sums, two, cut, sum, Option.bind_eq_bind,
              Option.bind_some, Option.pure_def, ne_eq, not_true_eq_false, not_false_eq_true, if_true, if_false]
          · have ⟨fits, _, _, length, _, sub⟩ := (parts payload).mp found
            obtain ⟨w, rfl⟩ := (List.cons_prefix_cons.mp (List.cons_prefix_cons.mp sub).2).2
            have same : payload.length = m := by
              rw [length, toNat_length fits] at size
              omega
            subst same
            have front : (payload ++ [dcs cmd payload] ++ w).take payload.length = payload := by simp
            have byte : (payload ++ [dcs cmd payload] ++ w)[payload.length] = dcs cmd payload := by simp
            rw [front, byte, dcs, zero_sub, add_neg_cancel]
        · refine .inr (.inr ⟨t.take m, ?_, ?_⟩)
          · refine (parts _).mpr ⟨?_, rfl, rfl, ?_, ?_, ?_⟩
            · have := n.toNat_lt
              rw [List.length_take]
              omega
            · rw [List.length_take_of_le held.le, ← size, UInt8.ofNat_toNat]
            · rw [zero_sub]
              exact eq_neg_of_add_eq_zero_right sums
            · have right : dcs cmd (t.take m) = t[m] := by
                rw [dcs, zero_sub]
                exact (eq_neg_of_add_eq_zero_right sum).symm
              rw [right, List.take_append_getElem held]
              exact List.cons_prefix_cons.mpr ⟨rfl, List.cons_prefix_cons.mpr ⟨rfl, List.take_prefix ..⟩⟩
          · simp only [look, g0, g1, g2, g3, g4, g5, data, gn, room, sums, two, cut, sum, Option.bind_eq_bind,
              Option.bind_some, Option.pure_def, ne_eq, not_true_eq_false, if_false]
            rw [List.length_take_of_le held.le, ← size, UInt8.ofNat_toNat]

theorem AnswerAt.length_le {buf payload : List UInt8} {cmd : UInt8} {i : Nat} (found : AnswerAt buf cmd i payload) :
    i + payload.length + 7 ≤ buf.length := by
  have := found.2.length_le
  simp only [answer, List.length_append, List.length_cons, List.length_nil, List.length_drop] at this
  omega

/-- The loop finds the first answer among its offsets. -/
theorem scan_spec {buf : List UInt8} {cmd : UInt8} {i k : Nat} (inside : i + k + 1 ≤ buf.length) :
    (scan buf cmd i k = some none ∧ ∀ j, i ≤ j → j < i + k → ∀ payload, ¬AnswerAt buf cmd j payload) ∨
      ∃ j payload, i ≤ j ∧ AnswerAt buf cmd j payload ∧ scan buf cmd i k = some (some (j + 6, payload.length)) ∧
        ∀ before, i ≤ before → before < j → ∀ payload, ¬AnswerAt buf cmd before payload := by
  induction k generalizing i with
  | zero => exact .inl ⟨rfl, fun j from_ below => by omega⟩
  | succ k ih =>
    rw [scan]
    rcases @look_spec buf cmd i (by omega) with
      ⟨look, none_⟩ | ⟨look, short⟩ | ⟨payload, found, look⟩
    · simp only [look, Option.bind_eq_bind, Option.bind_some]
      rcases ih (by omega : i + 1 + k + 1 ≤ buf.length) with ⟨scan, rest⟩ | ⟨j, payload, from_, found, scan, first⟩
      · refine .inl ⟨scan, fun j from_ below => ?_⟩
        rcases from_.eq_or_lt with rfl | behind
        · exact none_
        · exact rest j behind (by omega)
      · refine .inr ⟨j, payload, by omega, found, scan, fun before from_ below => ?_⟩
        rcases from_.eq_or_lt with rfl | behind
        · exact none_
        · exact first before behind below
    · simp only [look, Option.bind_eq_bind, Option.bind_some]
      refine .inl ⟨rfl, fun j from_ _ payload found => ?_⟩
      have := found.length_le
      omega
    · simp only [look, Option.bind_eq_bind, Option.bind_some]
      refine .inr ⟨i, payload, Nat.le_refl i, found, ?_, fun before from_ below => by omega⟩
      rw [toNat_length found.1]
      rfl

/-- `pn532_response` reads nothing outside the buffer, and returns the payload of the first answer in it. -/
theorem response_spec (buf : List UInt8) (cmd : UInt8) :
    (pn532Response buf cmd = some none ∧ ∀ j payload, ¬AnswerAt buf cmd j payload) ∨
      ∃ j payload, AnswerAt buf cmd j payload ∧ pn532Response buf cmd = some (some (j + 6, payload.length)) ∧
        ∀ before < j, ∀ payload, ¬AnswerAt buf cmd before payload := by
  by_cases empty : buf.length = 0
  · refine .inl ⟨by simp [pn532Response, empty, scan], fun j payload found => ?_⟩
    have := found.length_le
    omega
  · rcases @scan_spec buf cmd 0 (buf.length - 1) (by omega) with
      ⟨scan, rest⟩ | ⟨j, payload, _, found, scan, first⟩
    · refine .inl ⟨scan, fun j payload found => rest j (Nat.zero_le j) ?_ payload found⟩
      have := found.length_le
      omega
    · exact .inr ⟨j, payload, found, scan, fun before below => first before (Nat.zero_le _) below⟩

/-! ### What stands in front of the answer -/

/-- The frames of the chip: acknowledgements, the error frame, and information frames with a data field. -/
inductive Kind
  | ack
  | nack
  | error
  | info (data : List UInt8) (fits : 0 < data.length ∧ data.length ≤ 255)

/-- A frame from its start code to its last checksum. -/
def Kind.core : Kind → List UInt8
  | ack => [0x00, 0xFF, 0x00, 0xFF]
  | nack => [0x00, 0xFF, 0xFF, 0x00]
  | error => [0x00, 0xFF, 0x01, 0xFF, 0x7F, 0x81]
  | info data _ => [0x00, 0xFF, UInt8.ofNat data.length, 0 - UInt8.ofNat data.length] ++ data ++ [0 - data.sum]

/-- A frame, with a preamble and a postamble or without. -/
structure Frame where
  preamble : Bool
  kind : Kind
  postamble : Bool

namespace Frame

def bytes (f : Frame) : List UInt8 :=
  (if f.preamble then [0x00] else []) ++ f.kind.core ++ if f.postamble then [0x00] else []

/-- The frame is an answer to the command. -/
def Answers (cmd : UInt8) (f : Frame) : Prop := ∃ payload fits, f.kind = .info (tfiChip :: (cmd + 1) :: payload) fits

end Frame

/-- No answer begins where another frame does. -/
theorem not_answerAt_frame {buf rest payload : List UInt8} {cmd : UInt8} {f : Frame} {i : Nat} (other : ¬f.Answers cmd)
    (at_ : buf.drop i = f.bytes ++ rest) : ¬AnswerAt buf cmd i payload := by
  intro found
  obtain ⟨preamble, kind, postamble⟩ := f
  have size := toNat_length found.1
  cases preamble with
  | true =>
    have sub := found.2
    rw [at_, answer] at sub
    cases kind <;> simp [Frame.bytes, Kind.core] at sub
  | false =>
    cases kind with
    | ack =>
      have ⟨_, _, _, length, _⟩ := (answerAt_iff at_).mp found
      rw [← length] at size
      exact absurd size (by simp)
    | nack =>
      have ⟨_, _, _, _, lcs, _⟩ := (answerAt_iff at_).mp found
      exact absurd lcs (by decide)
    | error =>
      have ⟨_, _, _, length, _⟩ := (answerAt_iff at_).mp found
      rw [← length] at size
      exact absurd size (by simp)
    | info data held =>
      have ⟨_, _, _, length, _, sub⟩ := (answerAt_iff at_).mp found
      have same : data.length = payload.length + 2 := by
        rw [← size, ← length, UInt8.toNat_ofNat']
        omega
      match data with
      | [] | [_] => simp at same
      | tfi :: code :: data =>
        obtain ⟨w, goes⟩ := sub
        obtain ⟨rfl, goes⟩ := List.cons.inj goes
        obtain ⟨rfl, _⟩ := List.cons.inj goes
        exact other ⟨data, held, rfl⟩

/-- An answer stands in one of the frames, behind its first byte. -/
def Embedded (buf : List UInt8) (cmd : UInt8) : (at_ : Nat) → List Frame → Prop
  | _, [] => False
  | i, f :: fs =>
    (∃ j payload, 0 < j ∧ j < f.bytes.length ∧ AnswerAt buf cmd (i + j) payload) ∨
      Embedded buf cmd (i + f.bytes.length) fs

theorem embedded_iff {buf rest : List UInt8} {cmd : UInt8} {i : Nat} {frames : List Frame}
    (others : ∀ f ∈ frames, ¬f.Answers cmd) (at_ : buf.drop i = frames.flatMap Frame.bytes ++ rest) :
    Embedded buf cmd i frames ↔
      ∃ j payload, i ≤ j ∧ j < i + (frames.flatMap Frame.bytes).length ∧ AnswerAt buf cmd j payload := by
  induction frames generalizing i with
  | nil =>
    refine ⟨fun no => no.elim, fun ⟨j, payload, from_, below, _⟩ => ?_⟩
    simp only [List.flatMap_nil, List.length_nil] at below
    omega
  | cons f frames ih =>
    rw [List.flatMap_cons, List.append_assoc] at at_
    have behind : buf.drop (i + f.bytes.length) = frames.flatMap Frame.bytes ++ rest := by
      rw [← List.drop_drop, at_, List.drop_left]
    have later := ih (fun g mem => others g (List.mem_cons_of_mem f mem)) behind
    rw [Embedded, later, List.flatMap_cons, List.length_append]
    constructor
    · rintro (⟨j, payload, _, below, found⟩ | ⟨j, payload, from_, below, found⟩)
      · exact ⟨i + j, payload, by omega, by omega, found⟩
      · exact ⟨j, payload, by omega, by omega, found⟩
    · rintro ⟨j, payload, from_, below, found⟩
      rcases from_.eq_or_lt with rfl | after
      · exact absurd found (not_answerAt_frame (others f List.mem_cons_self) at_)
      · by_cases inside : j < i + f.bytes.length
        · refine .inl ⟨j - i, payload, by omega, by omega, ?_⟩
          rw [Nat.add_sub_cancel' from_]
          exact found
        · exact .inr ⟨j, payload, by omega, by omega, found⟩

/-- No start code stands in the bytes. -/
def NoStart (filler : List UInt8) : Prop := ∀ i : Nat, filler[i]? = some 0x00 → filler[i + 1]? ≠ some 0xFF

/-- No answer begins in filler, whatever frame follows it. -/
theorem not_answerAt_filler {filler rest payload : List UInt8} {cmd : UInt8} {i : Nat} (clean : NoStart filler)
    (next : rest.head? ≠ some 0xFF) (inside : i < filler.length) : ¬AnswerAt (filler ++ rest) cmd i payload := by
  rintro ⟨_, sub⟩
  obtain ⟨w, goes⟩ := sub
  have byte (k : Nat) : (filler ++ rest)[i + k]? = (answer cmd payload ++ w)[k]? := by rw [goes, List.getElem?_drop]
  have first := byte 0
  rw [Nat.add_zero, List.getElem?_append_left inside] at first
  have second := byte 1
  by_cases last : i + 1 < filler.length
  · rw [List.getElem?_append_left last] at second
    exact clean i first second
  · rw [List.getElem?_append_right (by omega), show i + 1 - filler.length = 0 by omega,
      ← List.head?_eq_getElem?] at second
    exact next second

theorem AnswerAt.length_eq {buf p q : List UInt8} {cmd : UInt8} {i : Nat} (first : AnswerAt buf cmd i p)
    (second : AnswerAt buf cmd i q) : p.length = q.length := by
  obtain ⟨w, at_⟩ := first.2
  rw [answer, List.append_assoc, List.append_assoc] at at_
  have ⟨_, _, _, length, _⟩ := (answerAt_iff at_.symm).mp second
  have := congrArg UInt8.toNat length
  rw [toNat_length first.1, toNat_length second.1] at this
  omega

theorem AnswerAt.payload_eq {buf payload : List UInt8} {cmd : UInt8} {i : Nat} (found : AnswerAt buf cmd i payload) :
    (buf.drop (i + 6)).take payload.length = payload := by
  obtain ⟨w, at_⟩ := found.2
  rw [← List.drop_drop, ← at_, answer]
  simp

/-- What stands in front of an answer: filler, other frames, and perhaps the answer's own preamble. -/
def front (filler : List UInt8) (frames : List Frame) (preamble : Bool) : List UInt8 :=
  filler ++ (frames.flatMap Frame.bytes ++ if preamble then [0x00] else [])

theorem head_frames {frames : List Frame} {preamble : Bool} {cmd : UInt8} {payload post : List UInt8} :
    (frames.flatMap Frame.bytes ++ (if preamble then [0x00] else []) ++ (answer cmd payload ++ post)).head? =
      some 0x00 := by
  cases frames with
  | nil => cases preamble <;> rfl
  | cons f frames =>
    obtain ⟨preamble, kind, postamble⟩ := f
    cases preamble <;> cases kind <;> rfl

/-- `pn532_response` returns the payload of the answer behind filler and other frames if and only if no answer stands
within these frames, and whatever it returns of any bytes is the payload of an answer in them. -/
theorem response_iff {cmd : UInt8} {filler payload : List UInt8} {frames : List Frame} (preamble : Bool)
    (post : List UInt8) (clean : NoStart filler) (others : ∀ f ∈ frames, ¬f.Answers cmd) (fits : payload.length ≤ 253) :
    (pn532Response (front filler frames preamble ++ (answer cmd payload ++ post)) cmd =
        some (some ((front filler frames preamble).length + 6, payload.length)) ↔
      ¬Embedded (front filler frames preamble ++ (answer cmd payload ++ post)) cmd filler.length frames) ∧
    ∀ (buf : List UInt8) (c : UInt8), ∃ r, pn532Response buf c = some r ∧ ∀ place ∈ r, ∃ i found,
      AnswerAt buf c i found ∧ place = (i + 6, found.length) ∧ (buf.drop (i + 6)).take found.length = found := by
  refine ⟨?_, fun buf c => ?_⟩
  · have whole : AnswerAt (front filler frames preamble ++ (answer cmd payload ++ post)) cmd
        (front filler frames preamble).length payload := ⟨fits, by rw [List.drop_left]; exact List.prefix_append ..⟩
    have fromFrames : (front filler frames preamble ++ (answer cmd payload ++ post)).drop filler.length =
        frames.flatMap Frame.bytes ++ ((if preamble then [0x00] else []) ++ (answer cmd payload ++ post)) := by
      simp [front]
    rw [embedded_iff others fromFrames]
    -- the first answer of the buffer, which is at or before the one that is meant
    rcases response_spec (front filler frames preamble ++ (answer cmd payload ++ post)) cmd with
      ⟨_, none_⟩ | ⟨j, found, at_, response, first⟩
    · exact absurd whole (none_ _ _)
    rw [response]
    constructor
    · rintro same ⟨i, other, _, below, embedded⟩
      have place : j = (front filler frames preamble).length := by
        have := congrArg Prod.fst (Option.some.inj (Option.some.inj same))
        simpa using this
      refine first i ?_ other embedded
      rw [place, front, List.length_append, List.length_append]
      omega
    · intro apart
      have place : j = (front filler frames preamble).length := by
        by_contra ne
        have before : j < (front filler frames preamble).length := by
          by_contra behind
          exact first _ (by omega) payload whole
        by_cases inside : j < filler.length
        · have split_ : front filler frames preamble ++ (answer cmd payload ++ post) = filler ++
              (frames.flatMap Frame.bytes ++ (if preamble then [0x00] else []) ++ (answer cmd payload ++ post)) := by
            simp [front]
          rw [split_] at at_
          exact not_answerAt_filler clean (by rw [head_frames]; decide) inside at_
        · by_cases framed : j < filler.length + (frames.flatMap Frame.bytes).length
          · exact apart ⟨j, found, Nat.le_of_not_lt inside, framed, at_⟩
          · -- then it begins with the answer's own preamble
            rw [front, List.length_append, List.length_append] at before
            cases preamble with
            | false =>
              simp only [Bool.false_eq_true, if_false, List.length_nil] at before
              omega
            | true =>
              simp only [if_true, List.length_singleton] at before
              have here : j = filler.length + (frames.flatMap Frame.bytes).length := by omega
              have sub := at_.2
              rw [here, ← List.drop_drop, fromFrames, List.drop_left] at sub
              simp [answer] at sub
      rw [place] at at_ ⊢
      rw [at_.length_eq whole]
  · rcases response_spec buf c with ⟨response, _⟩ | ⟨j, found, at_, response, _⟩
    · exact ⟨none, response, fun place no => absurd no (by simp)⟩
    · refine ⟨_, response, fun place same => ⟨j, found, at_, ?_, at_.payload_eq⟩⟩
      exact (Option.some.inj same).symm

/-- Behind the status byte and an error frame, the answer to `GetFirmwareVersion`. -/
theorem response_iff_version :
    pn532Response (front [0x01] [⟨false, .error, false⟩] false ++ (answer 0x02 [0x32, 0x01, 0x06, 0x07] ++ [])) 0x02 =
      some (some (13, 4)) := by
  refine (response_iff false [] ?_ ?_ (by decide)).1.mpr ?_
  · intro i zero
    cases i with
    | zero => exact absurd zero (by decide)
    | succ i => simp at zero
  · rintro f mem ⟨payload, fits, same⟩
    rw [List.mem_singleton.mp mem] at same
    cases same
  · rintro (⟨j, payload, pos, below, _, sub⟩ | no)
    · have : j < 6 := below
      interval_cases j <;> simp [front, answer, Frame.bytes, Kind.core] at sub
    · exact no

/-- A reply to another command that carries the text of an answer is taken for the answer. -/
theorem embedded_answer : ¬∀ (cmd : UInt8) (filler payload : List UInt8) (frames : List Frame), NoStart filler →
    (∀ f ∈ frames, ¬f.Answers cmd) → payload.length ≤ 253 →
      pn532Response (front filler frames false ++ (answer cmd payload ++ [])) cmd =
        some (some ((front filler frames false).length + 6, payload.length)) := by
  intro all
  have taken := all 0x4A [] [0x00]
    [⟨false, .info (tfiChip :: 0x41 :: 0x00 :: answer 0x4A [0xBA, 0xD0]) ⟨by decide, by decide⟩, false⟩]
    (fun i zero => by simp at zero) ?_ (by decide)
  · exact absurd taken (by decide +kernel)
  · rintro f mem ⟨payload, fits, same⟩
    rw [List.mem_singleton.mp mem] at same
    cases same

end RPCortex.Nfc
