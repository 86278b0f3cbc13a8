import RPCortex.Lib.Bytes

/-! The header of a sound file, `wav.cpp`: the walk through its chunks.  A read that is not in the bytes at hand is
`none`. -/

namespace RPCortex.Audio

open Lib

/-- `WavInfo`. -/
structure WavInfo where
  sampleRate : Nat
  channels : Nat
  bits : Nat
  dataOffset : Nat
  dataBytes : Nat
  deriving DecidableEq, Repr

/-- `WavResult`. -/
inductive WavResult
  | ok
  | notWav
  | truncated
  | noFmt
  | noData
  | unsupported
  deriving DecidableEq, Repr

/-- `n` bytes of the file from `i` on. -/
def bytesAt (data : List UInt8) (i n : Nat) : Option (List UInt8) :=
  if i + n ≤ data.length then some ((data.drop i).take n) else none

/-- `rd16` and `rd32`. -/
def rd (data : List UInt8) (i n : Nat) : Option Nat := (bytesAt data i n).map leDecode

abbrev tagFmt : List UInt8 := [0x66, 0x6D, 0x74, 0x20]

abbrev tagData : List UInt8 := [0x64, 0x61, 0x74, 0x61]

/-- What a `fmt ` chunk at `body` does to the record, and whether it is refused. -/
def readFmt (data : List UInt8) (body size : Nat) (info : WavInfo) : Option (Option WavResult × WavInfo) :=
  if size < 16 then some (some .truncated, info)
  else do
    let format ← rd data body 2
    let channels ← rd data (body + 2) 2
    let sampleRate ← rd data (body + 4) 4
    let bits ← rd data (body + 14) 2
    let info := { info with channels, sampleRate, bits }
    if format ≠ 1 ∧ format ≠ 0xFFFE then some (some .unsupported, info)
    else if bits ≠ 16 then some (some .unsupported, info)
    else if channels < 1 ∨ 2 < channels then some (some .unsupported, info)
    else if sampleRate = 0 then some (some .unsupported, info)
    else some (none, info)

/-- The loop of `wav_parse`, which goes on by eight bytes at least. -/
def walk (data : List UInt8) : (passes pos : Nat) → (haveFmt : Bool) → WavInfo → Option (WavResult × WavInfo)
  | 0, _, _, _ => none
  | passes + 1, pos, haveFmt, info =>
    if data.length < (pos + 8) % 2 ^ 32 then some (if haveFmt then .noData else .noFmt, info)
    else do
      let size ← rd data (pos + 4) 4
      let tag ← bytesAt data pos 4
      let body := pos + 8
      if data.length < body ∨ data.length - body < size then
        if tag = tagData ∧ haveFmt then
          some (.ok, { info with dataOffset := body, dataBytes := data.length - body })
        else some (.truncated, info)
      else
        let next := (body + size + size % 2) % 2 ^ 32
        if tag = tagFmt then
          match ← readFmt data body size info with
          | (some refused, info) => some (refused, info)
          | (none, info) => walk data passes next true info
        else if tag = tagData then
          if haveFmt then some (.ok, { info with dataOffset := body, dataBytes := size })
          else some (.noFmt, info)
        else walk data passes next haveFmt info

/-- `wav_parse`. -/
def wavParse (data : List UInt8) : Option (WavResult × WavInfo) :=
  let blank : WavInfo := ⟨0, 0, 0, 0, 0⟩
  if data.length < 12 then some (.notWav, blank)
  else do
    let riff ← bytesAt data 0 4
    let wave ← bytesAt data 8 4
    if riff ≠ [0x52, 0x49, 0x46, 0x46] ∨ wave ≠ [0x57, 0x41, 0x56, 0x45] then some (.notWav, blank)
    else walk data data.length 12 false blank

/-! ### Whatever the bytes are -/

/-- A record that is played from: the format is one that can be played, and the samples are in the bytes. -/
structure WavInfo.Playable (info : WavInfo) (len : Nat) : Prop where
  channels : 1 ≤ info.channels ∧ info.channels ≤ 2
  bits : info.bits = 16
  sampleRate : 0 < info.sampleRate
  inside : info.dataOffset + info.dataBytes ≤ len

/-- The part of it that a `fmt ` chunk gives. -/
def WavInfo.Known (info : WavInfo) : Prop :=
  (1 ≤ info.channels ∧ info.channels ≤ 2) ∧ info.bits = 16 ∧ 0 < info.sampleRate

variable {data : List UInt8} {info : WavInfo}

theorem bytesAt_some {i n : Nat} (inside : i + n ≤ data.length) : bytesAt data i n = some ((data.drop i).take n) :=
  if_pos inside

theorem rd_some {i n : Nat} (inside : i + n ≤ data.length) : rd data i n = some (leDecode ((data.drop i).take n)) := by
  rw [rd, bytesAt_some inside, Option.map_some]

theorem readFmt_inside {body size : Nat} (inside : body + size ≤ data.length) :
    ∃ refused info', readFmt data body size info = some (refused, info') ∧ refused ≠ some .ok ∧
      (refused = none → info'.Known) := by
  unfold readFmt
  split
  · exact ⟨_, _, rfl, by decide, nofun⟩
  next long =>
    rw [rd_some (by omega), rd_some (by omega), rd_some (by omega), rd_some (by omega)]
    simp only [Option.bind_eq_bind, Option.bind_some]
    split
    · exact ⟨_, _, rfl, by decide, nofun⟩
    split
    · exact ⟨_, _, rfl, by decide, nofun⟩
    next bits =>
      split
      · exact ⟨_, _, rfl, by decide, nofun⟩
      next channels =>
        split
        · exact ⟨_, _, rfl, by decide, nofun⟩
        next rate =>
          exact ⟨_, _, rfl, nofun, fun _ => ⟨by dsimp only; omega, not_not.mp bits, Nat.pos_of_ne_zero rate⟩⟩

/-- One pass: the end of the chunks, a chunk that ends the walk, or the next chunk. -/
theorem walk_step (small : data.length + 9 < 2 ^ 32) (passes : Nat) {pos : Nat} {haveFmt : Bool}
    (inside : pos + 8 ≤ data.length) :
    walk data (passes + 1) pos haveFmt info =
      let size := leDecode ((data.drop (pos + 4)).take 4)
      let tag := (data.drop pos).take 4
      if data.length - (pos + 8) < size then
        if tag = tagData ∧ haveFmt then
          some (.ok, { info with dataOffset := pos + 8, dataBytes := data.length - (pos + 8) })
        else some (.truncated, info)
      else if tag = tagFmt then
        match readFmt data (pos + 8) size info with
        | none => none
        | some (some refused, info) => some (refused, info)
        | some (none, info) => walk data passes (pos + 8 + size + size % 2) true info
      else if tag = tagData then
        if haveFmt then some (.ok, { info with dataOffset := pos + 8, dataBytes := size }) else some (.noFmt, info)
      else walk data passes (pos + 8 + size + size % 2) haveFmt info := by
  have near : (pos + 8) % 2 ^ 32 = pos + 8 := Nat.mod_eq_of_lt (by omega)
  rw [walk, near, if_neg (by omega), rd_some (by omega), bytesAt_some (by omega)]
  simp only [Option.bind_eq_bind, Option.bind_some]
  by_cases long : data.length - (pos + 8) < leDecode ((data.drop (pos + 4)).take 4)
  · rw [if_pos (.inr long), if_pos long]
  · have next : (pos + 8 + leDecode ((data.drop (pos + 4)).take 4) + leDecode ((data.drop (pos + 4)).take 4) % 2) %
        2 ^ 32 = pos + 8 + leDecode ((data.drop (pos + 4)).take 4) + leDecode ((data.drop (pos + 4)).take 4) % 2 :=
      Nat.mod_eq_of_lt (by omega)
    rw [if_neg (by omega), if_neg long, next]
    cases readFmt data (pos + 8) (leDecode ((data.drop (pos + 4)).take 4)) info with
    | none => rfl
    | some read =>
      obtain ⟨refused, info'⟩ := read
      cases refused <;> rfl

theorem walk_inside (small : data.length + 9 < 2 ^ 32) (passes : Nat) {pos : Nat}
    (enough : data.length + 2 ≤ pos + passes) {haveFmt : Bool} (reached : pos ≤ data.length + 1)
    (known : haveFmt = true → info.Known) :
    ∃ r info', walk data passes pos haveFmt info = some (r, info') ∧ (r = .ok → info'.Playable data.length) := by
  induction passes generalizing pos haveFmt info with
  | zero => omega
  | succ passes ih =>
    by_cases inside : pos + 8 ≤ data.length
    · rw [walk_step small passes inside]
      dsimp only
      generalize leDecode ((data.drop (pos + 4)).take 4) = size
      generalize (data.drop pos).take 4 = tag
      split
      · split
        next played =>
          obtain ⟨channels, bits, rate⟩ := known played.2
          exact ⟨_, _, rfl, fun _ => ⟨channels, bits, rate, by dsimp only; omega⟩⟩
        · exact ⟨_, _, rfl, nofun⟩
      next fits =>
        split
        · have chunk : pos + 8 + size ≤ data.length := by omega
          obtain ⟨refused, info', read, bad, good⟩ := @readFmt_inside data info _ _ chunk
          rw [read]
          cases refused with
          | none => exact ih (by omega) (by omega) fun _ => good rfl
          | some r => exact ⟨r, info', rfl, fun ok => absurd (congrArg some ok) bad⟩
        · split
          · split
            next played =>
              obtain ⟨channels, bits, rate⟩ := known played
              exact ⟨_, _, rfl, fun _ => ⟨channels, bits, rate, by dsimp only; omega⟩⟩
            · exact ⟨_, _, rfl, nofun⟩
          · exact ih (by omega) (by omega) known
    · have near : (pos + 8) % 2 ^ 32 = pos + 8 := Nat.mod_eq_of_lt (by omega)
      rw [walk, near, if_pos (by omega)]
      refine ⟨_, _, rfl, ?_⟩
      split <;> nofun

/-- Whatever the bytes are: the walk ends, reads nothing outside them, and what it accepts can be played from them. -/
theorem wavParse_inside (small : data.length + 9 < 2 ^ 32) :
    ∃ r info, wavParse data = some (r, info) ∧ (r = .ok → info.Playable data.length) := by
  unfold wavParse
  dsimp only
  split
  · exact ⟨_, _, rfl, nofun⟩
  next long =>
    rw [bytesAt_some (by omega), bytesAt_some (by omega)]
    simp only [Option.bind_eq_bind, Option.bind_some]
    split
    · exact ⟨_, _, rfl, nofun⟩
    · exact walk_inside small _ (by omega) (by omega) nofun

/-- A file with a title of three bytes in front of its format and of two samples. -/
def titledFile : List UInt8 :=
  [0x52, 0x49, 0x46, 0x46, 0x34, 0, 0, 0, 0x57, 0x41, 0x56, 0x45,
    0x4C, 0x49, 0x53, 0x54, 3, 0, 0, 0, 1, 2, 3, 0,
    0x66, 0x6D, 0x74, 0x20, 16, 0, 0, 0, 1, 0, 1, 0, 0x44, 0xAC, 0, 0, 0x88, 0x58, 1, 0, 2, 0, 16, 0,
    0x64, 0x61, 0x74, 0x61, 4, 0, 0, 0, 7, 0, 9, 0]

theorem wavParse_inside_titled :
    ∃ r info, wavParse titledFile = some (r, info) ∧ (r = .ok → info.Playable titledFile.length) :=
  wavParse_inside (by decide)

example : (wavParse titledFile).map (fun r => (r.1, r.2.dataOffset, r.2.dataBytes)) = some (.ok, 56, 4) := by
  decide +kernel

/-! ### A file of chunks -/

/-- A chunk, with the byte that fills it up. -/
structure Chunk where
  tag : List UInt8
  body : List UInt8
  pad : UInt8
  tag_length : tag.length = 4
  body_length : body.length < 2 ^ 32

def Chunk.bytes (c : Chunk) : List UInt8 :=
  List.flatten [c.tag, leEncode 4 c.body.length, c.body, if c.body.length % 2 = 1 then [c.pad] else []]

/-- What a `fmt ` chunk says. -/
def Chunk.format (c : Chunk) (info : WavInfo) : Except (WavResult × WavInfo) WavInfo :=
  if c.body.length < 16 then .error (.truncated, info)
  else
    let field (i n : Nat) : Nat := leDecode ((c.body.drop i).take n)
    let info := { info with channels := field 2 2, sampleRate := field 4 4, bits := field 14 2 }
    if (field 0 2 = 1 ∨ field 0 2 = 0xFFFE) ∧ info.bits = 16 ∧ (info.channels = 1 ∨ info.channels = 2) ∧
        info.sampleRate ≠ 0 then .ok info
    else .error (.unsupported, info)

/-- What a chunk that has no samples adds to what is known. -/
def Chunk.read (known : Bool × WavInfo) (c : Chunk) : Except (WavResult × WavInfo) (Bool × WavInfo) :=
  if c.tag = tagFmt then (c.format known.2).map fun info => (true, info) else .ok known

/-- The samples behind the chunks, as many as there are or as their size says. -/
def played (offset size : Nat) (samples : List UInt8) : Bool × WavInfo → WavResult × WavInfo
  | (true, info) => (.ok, { info with dataOffset := offset, dataBytes := min size samples.length })
  | (false, info) => (if samples.length < size then .truncated else .noFmt, info)

variable {front rest : List UInt8} {c : Chunk}

theorem Chunk.bytes_append : c.bytes ++ rest = c.tag ++ (leEncode 4 c.body.length ++ (c.body ++
    ((if c.body.length % 2 = 1 then [c.pad] else []) ++ rest))) := by
  simp only [Chunk.bytes, List.flatten_cons, List.flatten_nil, List.append_nil, List.append_assoc]

theorem Chunk.length_bytes (c : Chunk) : c.bytes.length = 8 + c.body.length + c.body.length % 2 := by
  have tag := c.tag_length
  simp only [Chunk.bytes, List.flatten_cons, List.flatten_nil, List.append_nil, List.length_append, length_leEncode]
  split
  · rw [List.length_singleton]
    omega
  · rw [List.length_nil]
    omega

theorem chunk_tag : ((front ++ (c.bytes ++ rest)).drop front.length).take 4 = c.tag := by
  rw [List.drop_left, Chunk.bytes_append]
  exact List.take_left' c.tag_length

theorem chunk_size : leDecode (((front ++ (c.bytes ++ rest)).drop (front.length + 4)).take 4) = c.body.length := by
  rw [List.drop_length_add_append, Chunk.bytes_append, List.drop_left' c.tag_length,
    List.take_left' (length_leEncode 4 _), leDecode_leEncode]
  exact Nat.mod_eq_of_lt c.body_length

theorem chunk_field {i n : Nat} (inside : i + n ≤ c.body.length) :
    ((front ++ (c.bytes ++ rest)).drop (front.length + 8 + i)).take n = (c.body.drop i).take n := by
  have tag := c.tag_length
  have head : (c.tag ++ leEncode 4 c.body.length).length = 8 := by
    rw [List.length_append, length_leEncode]
    omega
  have parts : c.bytes ++ rest = (c.tag ++ leEncode 4 c.body.length) ++ (c.body ++
      ((if c.body.length % 2 = 1 then [c.pad] else []) ++ rest)) := by
    rw [Chunk.bytes_append, List.append_assoc]
  rw [Nat.add_assoc, List.drop_length_add_append, parts, ← head, List.drop_length_add_append,
    List.drop_append_of_le_length (by omega), List.take_append_of_le_length (by rw [List.length_drop]; omega)]

theorem readFmt_eq : readFmt (front ++ (c.bytes ++ rest)) (front.length + 8) c.body.length info =
    match c.format info with
    | .error (refused, info) => some (some refused, info)
    | .ok info => some (none, info) := by
  unfold readFmt Chunk.format
  by_cases short : c.body.length < 16
  · rw [if_pos short, if_pos short]
  · have total : (front ++ (c.bytes ++ rest)).length = front.length + (8 + c.body.length + c.body.length % 2) +
        rest.length := by
      rw [List.length_append, List.length_append, c.length_bytes]
      omega
    have format : rd (front ++ (c.bytes ++ rest)) (front.length + 8) 2 = some (leDecode ((c.body.drop 0).take 2)) := by
      rw [rd_some (by omega)]
      exact congrArg (some ∘ leDecode) (chunk_field (i := 0) (by omega))
    rw [if_neg short, if_neg short, format, rd_some (by omega), rd_some (by omega), rd_some (by omega),
      chunk_field (by omega), chunk_field (by omega), chunk_field (by omega)]
    simp only [Option.bind_eq_bind, Option.bind_some]
    generalize leDecode ((c.body.drop 0).take 2) = kind
    generalize leDecode ((c.body.drop 2).take 2) = channels
    generalize leDecode ((c.body.drop 4).take 4) = rate
    generalize leDecode ((c.body.drop 14).take 2) = bits
    by_cases good : (kind = 1 ∨ kind = 0xFFFE) ∧ bits = 16 ∧ (channels = 1 ∨ channels = 2) ∧ rate ≠ 0
    · rw [if_neg (by omega), if_neg (not_not_intro good.2.1), if_neg (by omega), if_neg good.2.2.2, if_pos good]
    · rw [if_neg good]
      dsimp only
      split
      · rfl
      split
      · rfl
      split
      · rfl
      split
      · rfl
      · exact absurd ⟨by omega, by omega, by omega, by omega⟩ good

/-- A pass takes a chunk that has no samples. -/
theorem walk_chunk (small : (front ++ (c.bytes ++ rest)).length + 9 < 2 ^ 32) (other : c.tag ≠ tagData) (passes : Nat)
    (haveFmt : Bool) : walk (front ++ (c.bytes ++ rest)) (passes + 1) front.length haveFmt info =
      match c.read (haveFmt, info) with
      | .error r => some r
      | .ok known => walk (front ++ (c.bytes ++ rest)) passes (front ++ c.bytes).length known.1 known.2 := by
  have total : (front ++ (c.bytes ++ rest)).length = front.length + (8 + c.body.length + c.body.length % 2) +
      rest.length := by
    rw [List.length_append, List.length_append, c.length_bytes]
    omega
  have behind : (front ++ c.bytes).length = front.length + 8 + c.body.length + c.body.length % 2 := by
    rw [List.length_append, c.length_bytes]
    omega
  rw [walk_step small passes (by omega)]
  dsimp only
  rw [chunk_size, chunk_tag, if_neg (by omega), behind]
  unfold Chunk.read
  split
  · rw [readFmt_eq]
    cases c.format info with
    | error r => rfl
    | ok info => rfl
  · rfl

theorem walk_chunks (chunks : List Chunk) (other : ∀ c ∈ chunks, c.tag ≠ tagData) (passes : Nat) (haveFmt : Bool)
    (small : (front ++ (chunks.flatMap Chunk.bytes ++ rest)).length + 9 < 2 ^ 32) :
    walk (front ++ (chunks.flatMap Chunk.bytes ++ rest)) (passes + chunks.length) front.length haveFmt info =
      match chunks.foldlM Chunk.read (haveFmt, info) with
      | .error r => some r
      | .ok known => walk (front ++ (chunks.flatMap Chunk.bytes ++ rest)) passes
          (front ++ chunks.flatMap Chunk.bytes).length known.1 known.2 := by
  induction chunks generalizing front haveFmt info with
  | nil =>
    rw [List.flatMap_nil, List.append_nil]
    rfl
  | cons c chunks ih =>
    have parts : front ++ ((c :: chunks).flatMap Chunk.bytes ++ rest) =
        front ++ (c.bytes ++ (chunks.flatMap Chunk.bytes ++ rest)) := by
      rw [List.flatMap_cons, List.append_assoc]
    have moved : front ++ (c.bytes ++ (chunks.flatMap Chunk.bytes ++ rest)) =
        (front ++ c.bytes) ++ (chunks.flatMap Chunk.bytes ++ rest) := (List.append_assoc _ _ _).symm
    have whole : front ++ (c :: chunks).flatMap Chunk.bytes = (front ++ c.bytes) ++ chunks.flatMap Chunk.bytes := by
      rw [List.flatMap_cons, List.append_assoc]
    rw [parts] at small ⊢
    rw [List.length_cons, ← Nat.add_assoc, walk_chunk small (other c List.mem_cons_self), List.foldlM_cons, whole]
    cases c.read (haveFmt, info) with
    | error r => rfl
    | ok known =>
      rw [moved] at small ⊢
      exact ih (fun c mem => other c (List.mem_cons_of_mem _ mem)) known.1 small

/-- The twelve bytes that a file begins with. -/
def riffHead (size : List UInt8) : List UInt8 := [0x52, 0x49, 0x46, 0x46] ++ size ++ [0x57, 0x41, 0x56, 0x45]

theorem length_chunks (chunks : List Chunk) : chunks.length ≤ (chunks.flatMap Chunk.bytes).length := by
  induction chunks with
  | nil => exact Nat.le_refl 0
  | cons c chunks ih =>
    rw [List.flatMap_cons, List.length_append, List.length_cons, c.length_bytes]
    omega

/-- The samples' chunk ends the walk. -/
theorem walk_data (head samples : List UInt8) {size : Nat} (lt : size < 2 ^ 32) (passes : Nat) (known : Bool × WavInfo)
    (small : (head ++ (tagData ++ (leEncode 4 size ++ samples))).length + 9 < 2 ^ 32) :
    walk (head ++ (tagData ++ (leEncode 4 size ++ samples))) (passes + 1) head.length known.1 known.2 =
      some (played (head.length + 8) size samples known) := by
  have total : (head ++ (tagData ++ (leEncode 4 size ++ samples))).length = head.length + 8 + samples.length := by
    simp only [List.length_append, length_leEncode, List.length_cons, List.length_nil]
    omega
  have four : tagData.length = 4 := rfl
  have tag : ((head ++ (tagData ++ (leEncode 4 size ++ samples))).drop head.length).take 4 = tagData := by
    rw [List.drop_left]
    exact List.take_left' four
  have sized : leDecode (((head ++ (tagData ++ (leEncode 4 size ++ samples))).drop (head.length + 4)).take 4) =
      size := by
    rw [List.drop_length_add_append, List.drop_left' four, List.take_left' (length_leEncode 4 _), leDecode_leEncode]
    exact Nat.mod_eq_of_lt lt
  have left : head.length + 8 + samples.length - (head.length + 8) = samples.length := Nat.add_sub_cancel_left _ _
  rw [walk_step small passes (by omega), total, left]
  dsimp only
  rw [sized, tag]
  obtain ⟨haveFmt, info⟩ := known
  unfold played
  by_cases long : samples.length < size
  · rw [if_pos long, Nat.min_eq_right (Nat.le_of_lt long)]
    cases haveFmt with
    | true => exact if_pos ⟨rfl, rfl⟩
    | false =>
      dsimp only
      rw [if_pos long]
      exact if_neg fun h => Bool.false_ne_true h.2
  · rw [if_neg long, if_neg (by decide : ¬tagData = tagFmt), if_pos rfl, Nat.min_eq_left (Nat.not_lt.mp long)]
    cases haveFmt with
    | true => rfl
    | false =>
      dsimp only
      rw [if_neg long]
      rfl

/-- Whatever chunks an editor put in front of the samples, and however much of the file is at hand behind their size:
the record has the format of the last `fmt ` chunk and the place of the samples, or the first chunk that is refused
decides. -/
theorem wavParse_file {riff : List UInt8} (four : riff.length = 4) (chunks : List Chunk)
    (other : ∀ c ∈ chunks, c.tag ≠ tagData) {size : Nat} (lt : size < 2 ^ 32) (samples : List UInt8)
    (small : (riffHead riff ++ (chunks.flatMap Chunk.bytes ++ (tagData ++ (leEncode 4 size ++ samples)))).length + 9 <
      2 ^ 32) :
    wavParse (riffHead riff ++ (chunks.flatMap Chunk.bytes ++ (tagData ++ (leEncode 4 size ++ samples)))) =
      match chunks.foldlM Chunk.read (false, ⟨0, 0, 0, 0, 0⟩) with
      | .error r => some r
      | .ok known => some (played ((riffHead riff ++ chunks.flatMap Chunk.bytes).length + 8) size samples known) := by
  have twelve : (riffHead riff).length = 12 := by
    simp only [riffHead, List.length_append, four, List.length_cons, List.length_nil]
  have few := length_chunks chunks
  generalize rest_ : tagData ++ (leEncode 4 size ++ samples) = rest at *
  have total : (riffHead riff ++ (chunks.flatMap Chunk.bytes ++ rest)).length =
      12 + (chunks.flatMap Chunk.bytes).length + rest.length := by
    rw [List.length_append, List.length_append, twelve, Nat.add_assoc]
  have some_ : 8 ≤ rest.length := by
    rw [← rest_]
    simp only [List.length_append, length_leEncode, List.length_cons, List.length_nil]
    omega
  obtain ⟨passes, enough⟩ : ∃ passes, (riffHead riff ++ (chunks.flatMap Chunk.bytes ++ rest)).length =
      passes + 1 + chunks.length :=
    ⟨11 + (chunks.flatMap Chunk.bytes).length + rest.length - chunks.length, by omega⟩
  have ended : riffHead riff ++ (chunks.flatMap Chunk.bytes ++ rest) =
      (riffHead riff ++ chunks.flatMap Chunk.bytes) ++ rest := (List.append_assoc _ _ _).symm
  have eight : ([0x52, 0x49, 0x46, 0x46] ++ riff : List UInt8).length = 8 := by
    rw [List.length_append, four, List.length_cons, List.length_cons, List.length_cons, List.length_singleton]
  have wave : ((riffHead riff ++ (chunks.flatMap Chunk.bytes ++ rest)).drop 8).take 4 = [0x57, 0x41, 0x56, 0x45] := by
    rw [riffHead, List.append_assoc, List.drop_left' eight]
    exact List.take_left' rfl
  have first : ((riffHead riff ++ (chunks.flatMap Chunk.bytes ++ rest)).drop 0).take 4 =
      [0x52, 0x49, 0x46, 0x46] := rfl
  have walked := @walk_chunks ⟨0, 0, 0, 0, 0⟩ (riffHead riff) rest chunks other (passes + 1) false small
  rw [← enough, twelve] at walked
  unfold wavParse
  dsimp only
  rw [if_neg (by omega), bytesAt_some (by omega), bytesAt_some (by omega), first, wave]
  simp only [Option.bind_eq_bind, Option.bind_some]
  rw [if_neg (by decide), walked]
  cases chunks.foldlM Chunk.read (false, ⟨0, 0, 0, 0, 0⟩) with
  | error r => rfl
  | ok known =>
    dsimp only
    rw [ended, ← rest_] at small ⊢
    exact walk_data _ samples lt passes known small

/-- A title of three bytes, and 16-bit stereo. -/
def taggedChunks : List Chunk :=
  [⟨[0x4C, 0x49, 0x53, 0x54], [1, 2, 3], 0, rfl, by decide⟩,
    ⟨tagFmt,
      List.flatten [leEncode 2 1, leEncode 2 2, leEncode 4 44100, leEncode 4 176400, leEncode 2 4, leEncode 2 16],
      0, rfl, by decide⟩]

theorem wavParse_file_tagged :
    wavParse (riffHead [0, 0, 0, 0] ++ (taggedChunks.flatMap Chunk.bytes ++
        (tagData ++ (leEncode 4 4000 ++ [7, 8, 9])))) =
      match taggedChunks.foldlM Chunk.read (false, ⟨0, 0, 0, 0, 0⟩) with
      | .error r => some r
      | .ok known =>
        some (played ((riffHead [0, 0, 0, 0] ++ taggedChunks.flatMap Chunk.bytes).length + 8) 4000 [7, 8, 9] known) :=
  wavParse_file rfl taggedChunks (by decide) (by decide) [7, 8, 9] (by decide)

end RPCortex.Audio
