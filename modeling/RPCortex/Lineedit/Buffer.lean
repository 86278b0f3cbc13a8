import RPCortex.Console.Complete

/-! `line_edit` of `lineedit.cpp` over a buffer of memory: every write goes through a check of its place.  What the
terminal is shown is left out; nothing of it is written to the buffer. -/

namespace RPCortex.Lineedit

open Console (compMax compLen collect)

abbrev space : UInt8 := 0x20

/-- The memory of the buffer, with the length and the cursor of the line in it. -/
structure Text where
  buf : Nat → UInt8
  len : Nat
  pos : Nat

/-- A byte is written into a buffer of `cap` bytes; `none` is a write outside. -/
def put (cap : Nat) (buf : Nat → UInt8) (i : Nat) (c : UInt8) : Option (Nat → UInt8) :=
  if i < cap then some fun j => if j = i then c else buf j else none

/-- `memmove` within the buffer. -/
def move (cap : Nat) (buf : Nat → UInt8) (dst src n : Nat) : Option (Nat → UInt8) :=
  if dst + n ≤ cap ∧ src + n ≤ cap then
    some fun j => if dst ≤ j ∧ j < dst + n then buf (j - dst + src) else buf j
  else none

/-! ### The operations on the line -/

/-- A loop that goes back over bytes. -/
def backOver (p : UInt8 → Bool) (buf : Nat → UInt8) : (pos : Nat) → Nat
  | 0 => 0
  | pos + 1 => if p (buf pos) then backOver p buf pos else pos + 1

/-- `line_word_start`. -/
def lineWordStart (t : Text) : Nat :=
  backOver (· ≠ space) t.buf (backOver (· = space) t.buf (min t.pos t.len))

/-- A loop that goes on over `n` bytes at most. -/
def onOver (p : UInt8 → Bool) (buf : Nat → UInt8) (pos : Nat) : (n : Nat) → Nat
  | 0 => pos
  | n + 1 => if p (buf pos) then onOver p buf (pos + 1) n else pos

/-- `line_word_end`. -/
def lineWordEnd (t : Text) : Nat :=
  if t.len < t.pos then t.len
  else
    let pos := onOver (· = space) t.buf t.pos (t.len - t.pos)
    onOver (· ≠ space) t.buf pos (t.len - pos)

/-- `line_insert` at the cursor, which stays. -/
def lineInsert (cap : Nat) (t : Text) (c : UInt8) : Option Text :=
  if cap ≤ t.len + 1 then some t
  else do
    let pos := min t.pos t.len
    let buf ← move cap t.buf (pos + 1) pos (t.len - pos)
    let buf ← put cap buf pos c
    let buf ← put cap buf (t.len + 1) 0
    return { t with buf, len := t.len + 1 }

/-- `line_delete_back`. -/
def lineDeleteBack (cap : Nat) (t : Text) (count : Nat) : Option Text :=
  let pos := min t.pos t.len
  let count := min count pos
  if count = 0 then some { t with pos }
  else do
    let buf ← move cap t.buf (pos - count) pos (t.len - pos)
    let buf ← put cap buf (t.len - count) 0
    return ⟨buf, t.len - count, pos - count⟩

/-- `line_delete_at`. -/
def lineDeleteAt (cap : Nat) (t : Text) : Option Text :=
  if t.len ≤ t.pos then some t
  else do
    let buf ← move cap t.buf t.pos (t.pos + 1) (t.len - t.pos - 1)
    let buf ← put cap buf (t.len - 1) 0
    return { t with buf, len := t.len - 1 }

/-- The loop that puts a text in at the cursor, as far as there is room. -/
def insertAll (cap : Nat) : Text → List UInt8 → Option Text
  | t, [] => some t
  | t, c :: rest =>
    if t.len + 1 < cap then do
      let t ← lineInsert cap t c
      insertAll cap { t with pos := t.pos + 1 } rest
    else some t

/-- `snprintf` of a string into the whole buffer: what fits of it, and its NUL. -/
def fill (cap : Nat) (buf : Nat → UInt8) (text : List UInt8) : Option (Nat → UInt8) :=
  let kept := text.take (cap - 1)
  if kept.length < cap then
    some fun j => if j < kept.length then kept.getD j 0 else if j = kept.length then 0 else buf j
  else none

/-! ### Completion -/

/-- `line_common_prefix`, with its buffer. -/
def lineCommonPrefix (cands : List (List UInt8)) (cap : Nat) : List UInt8 :=
  match cands with
  | [] => []
  | first :: others => (Console.lineCommonPrefix first others).take (cap - 1)

/-- `line_ghost`. -/
def lineGhost (cands : List (List UInt8)) (typed : List UInt8) (cap : Nat) : List UInt8 :=
  match cands with
  | [cand] => if typed <+: cand then (cand.drop typed.length).take (cap - 1) else []
  | _ => []

/-! ### Keys -/

inductive Key
  | up
  | down
  | left
  | right
  | home
  | end_
  | delete
  | wordLeft
  | wordRight
  | unknown
  deriving DecidableEq, Repr

/-- `line_decode_escape`, the form after `O`. -/
def decodeSs3 (c : UInt8) : Key :=
  if c = 0x41 then .up else if c = 0x42 then .down else if c = 0x43 then .right else if c = 0x44 then .left
  else if c = 0x48 then .home else if c = 0x46 then .end_ else .unknown

/-- A modifier for words stands in the parameters. -/
def ctrlIn : List UInt8 → Bool
  | c :: d :: rest => (c = 0x3B ∧ (d = 0x35 ∨ d = 0x36)) || ctrlIn (d :: rest)
  | _ => false

/-- `line_decode_escape`. -/
def lineDecodeEscape (seq : List UInt8) : Key :=
  match seq with
  | [] => .unknown
  | first :: rest =>
    if first = 0x4F ∧ rest ≠ [] then decodeSs3 (rest.headD 0)
    else if first ≠ 0x5B then .unknown
    else
      let last := seq.getLastD 0
      let ctrl := ctrlIn rest
      if last = 0x41 then .up else if last = 0x42 then .down
      else if last = 0x43 then if ctrl then .wordRight else .right
      else if last = 0x44 then if ctrl then .wordLeft else .left
      else if last = 0x48 then .home else if last = 0x46 then .end_
      else if last = 0x7E then
        match rest with
        | [] => .unknown
        | d :: _ =>
          if d = 0x33 then .delete else if d = 0x31 ∨ d = 0x37 then .home
          else if d = 0x34 ∨ d = 0x38 then .end_ else .unknown
      else .unknown

/-- The loop that collects a sequence behind ESC; a `none` of the stream is a read that found no byte in time. -/
def collectEscape : (room : Nat) → (seq : List UInt8) → (stream : List (Option UInt8)) →
    List UInt8 × List (Option UInt8)
  | 0, seq, stream => (seq, stream)
  | _ + 1, seq, [] => (seq, [])
  | _ + 1, seq, none :: stream => (seq, stream)
  | room + 1, seq, some k :: stream =>
    let seq := seq ++ [k]
    if seq.length = 1 ∧ k = 0x4F then collectEscape room seq stream
    else if (0x40 ≤ k ∧ k ≤ 0x7E) ∧ ¬(seq.length = 1 ∧ k = 0x5B) then (seq, stream)
    else collectEscape room seq stream

/-! ### The loop -/

/-- The sources of a line.  They are told how often one was asked before, since they may answer another time
differently. -/
structure Sources where
  complete : Option ((asked : Nat) → (typed : List UInt8) → (wordStart index : Nat) → Option (List UInt8))
  history : Option ((asked : Nat) → (depth : Nat) → Option (List UInt8))

/-- The variables of `line_edit`.  Two are the model's own: `asked` counts the askings of a source, and `known` has
every character that was typed, recalled or offered by a completion. -/
structure Editor where
  text : Text
  browse : Int
  ghost : List UInt8
  asked : Nat
  known : List UInt8

/-- The candidates for the word in front of the cursor. -/
def Sources.candidates (src : Sources) (e : Editor) (n : Nat) (typed : List UInt8) (wordStart : Nat) :
    List (List UInt8) :=
  match src.complete with
  | none => []
  | some complete => collect (complete e.asked typed wordStart) n 0

/-- The bytes of the line from `i` on. -/
def Text.bytes (t : Text) (i n : Nat) : List UInt8 := (List.range n).map fun j => t.buf (i + j)

/-- `refresh_ghost`. -/
def refreshGhost (src : Sources) (e : Editor) : Editor :=
  if src.complete.isNone ∨ e.text.pos ≠ e.text.len ∨ e.text.len = 0 then { e with ghost := [] }
  else
    let ws := lineWordStart e.text
    let plen := e.text.pos - ws
    if plen = 0 ∨ compLen ≤ plen then { e with ghost := [] }
    else
      let typed := e.text.bytes ws plen
      let cands := src.candidates e 2 typed ws
      { e with ghost := lineGhost cands typed compLen, asked := e.asked + 1, known := e.known ++ cands.flatten }

/-- The line that a step up or down in the history recalls. -/
def recalled (src : Sources) (cap : Nat) (e : Editor) (by_ : Int) : Option Editor :=
  match src.history with
  | none => some e
  | some history =>
    let want := max (e.browse + by_) (-1)
    match if want < 0 then some [] else history e.asked want.toNat with
    | none => some { e with asked := e.asked + 1 }
    | some h => do
      let buf ← fill cap e.text.buf h
      let len := (h.take (cap - 1)).length
      return { e with text := ⟨buf, len, len⟩, browse := want, asked := e.asked + 1, known := e.known ++ h }

/-- What a key behind ESC does to the line. -/
def keyed (src : Sources) (cap : Nat) (e : Editor) : Key → Option Editor
  | .left => some { e with text := { e.text with pos := e.text.pos - 1 } }
  | .right =>
    if e.text.pos = e.text.len ∧ e.ghost ≠ [] then
      (insertAll cap e.text e.ghost).map fun text => { e with text }
    else if e.text.pos < e.text.len then some { e with text := { e.text with pos := e.text.pos + 1 } }
    else some e
  | .home => some { e with text := { e.text with pos := 0 } }
  | .end_ =>
    if e.text.pos = e.text.len ∧ e.ghost ≠ [] then
      (insertAll cap e.text e.ghost).map fun text => { e with text := { text with pos := text.len } }
    else some { e with text := { e.text with pos := e.text.len } }
  | .wordLeft => some { e with text := { e.text with pos := lineWordStart e.text } }
  | .wordRight => some { e with text := { e.text with pos := lineWordEnd e.text } }
  | .delete => (lineDeleteAt cap e.text).map fun text => { e with text, browse := -1 }
  | .up => recalled src cap e 1
  | .down => recalled src cap e (-1)
  | .unknown => some e

/-- The tab key. -/
def tab (src : Sources) (cap : Nat) (e : Editor) : Option Editor :=
  if src.complete.isNone then some e
  else
    let ws := lineWordStart e.text
    let plen := min (e.text.pos - ws) (compLen - 1)
    let typed := e.text.bytes ws plen
    let cands := src.candidates e compMax typed ws
    let e := { e with asked := e.asked + 1, known := e.known ++ cands.flatten }
    if cands = [] then some e
    else
      let common := lineCommonPrefix cands compLen
      if common ≠ typed then do
        -- the whole word is taken out, but its length only up to what the prefix holds
        let buf ← move cap e.text.buf ws e.text.pos (e.text.len - e.text.pos)
        let text ← insertAll cap ⟨buf, e.text.len - plen, ws⟩ common
        if cands.length = 1 ∧ (text.pos = text.len ∨ text.buf text.pos ≠ space) then do
          let text ← insertAll cap text [space]
          return refreshGhost src { e with text, known := e.known ++ [space] }
        else return refreshGhost src { e with text }
      else some (refreshGhost src e)

/-- What a pass of the loop comes to. -/
inductive Outcome
  | on (e : Editor) (stream : List (Option UInt8))
  | returned (buf : Nat → UInt8) (len : Nat)

/-- An edit that starts the history over. -/
def edited (src : Sources) (e : Editor) (text : Text) : Editor := refreshGhost src { e with text, browse := -1 }

/-- What a key other than ESC does; `none` is a write outside the buffer. -/
def plain (src : Sources) (cap : Nat) (e : Editor) (c : UInt8) : Option Editor :=
  if c = 0x03 then (put cap e.text.buf 0 0).map fun buf => { e with text := ⟨buf, 0, 0⟩ }
  else if c = 0x7F ∨ c = 0x08 then (lineDeleteBack cap e.text 1).map (edited src e)
  else if c = 0x17 then (lineDeleteBack cap e.text (e.text.pos - lineWordStart e.text)).map (edited src e)
  else if c = 0x15 then (lineDeleteBack cap e.text e.text.pos).map (edited src e)
  else if c = 0x0B then
    (put cap e.text.buf e.text.pos 0).map fun buf =>
      refreshGhost src { e with text := { e.text with buf, len := e.text.pos } }
  else if c = 0x01 then some (refreshGhost src { e with text := { e.text with pos := 0 } })
  else if c = 0x05 then some (refreshGhost src { e with text := { e.text with pos := e.text.len } })
  else if c = 0x09 then tab src cap e
  else if 0x20 ≤ c ∧ c < 0x7F then
    (lineInsert cap e.text c).map fun text =>
      if text.len ≠ e.text.len then edited src { e with known := e.known ++ [c] } { text with pos := text.pos + 1 }
      else { e with text }
  else some e

/-- A pass of the loop over what is left to read. -/
def pass (src : Sources) (cap : Nat) (e : Editor) : List (Option UInt8) → Option Outcome
  | [] => some (.on e [])
  | none :: stream => some (.on e stream)
  | some c :: stream =>
    if c = 0x0D ∨ c = 0x0A then (put cap e.text.buf e.text.len 0).map fun buf => .returned buf e.text.len
    else if c = 0x1B then
      let (seq, stream) := collectEscape 12 [] stream
      if seq = [] then some (.on e stream)
      else (keyed src cap e (lineDecodeEscape seq)).map fun e => .on (refreshGhost src e) stream
    else (plain src cap e c).map fun e => .on e stream

/-- What `line_edit` comes to over a stream of bytes: the states at the head of its loop, with what is left to read. -/
inductive Reached (src : Sources) (cap : Nat) (memory : Nat → UInt8) (stream : List (Option UInt8)) :
    Editor → List (Option UInt8) → Prop
  | start {buf : Nat → UInt8} (begun : put cap memory 0 0 = some buf) :
    Reached src cap memory stream ⟨⟨buf, 0, 0⟩, -1, [], 0, []⟩ stream
  | pass {e e' : Editor} {rest rest' : List (Option UInt8)} (before : Reached src cap memory stream e rest)
    (went : pass src cap e rest = some (.on e' rest')) : Reached src cap memory stream e' rest'

/-! ### The line stays a line -/

/-- The cursor is in the line, the line in the buffer, and its characters are among these. -/
structure Text.Line (cap : Nat) (known : List UInt8) (t : Text) : Prop where
  pos : t.pos ≤ t.len
  len : t.len < cap
  chars : ∀ i < t.len, t.buf i ∈ known

variable {cap : Nat} {known : List UInt8} {t : Text} {src : Sources} {e : Editor}

theorem backOver_le (p : UInt8 → Bool) (buf : Nat → UInt8) (pos : Nat) : backOver p buf pos ≤ pos := by
  induction pos with
  | zero => exact Nat.le_refl 0
  | succ pos ih =>
    unfold backOver
    split
    · exact ih.trans (Nat.le_succ pos)
    · exact Nat.le_refl _

theorem lineWordStart_le (t : Text) : lineWordStart t ≤ min t.pos t.len :=
  (backOver_le _ _ _).trans (backOver_le _ _ _)

theorem onOver_le (p : UInt8 → Bool) (buf : Nat → UInt8) (pos n : Nat) :
    pos ≤ onOver p buf pos n ∧ onOver p buf pos n ≤ pos + n := by
  induction n generalizing pos with
  | zero => exact ⟨Nat.le_refl _, Nat.le_refl _⟩
  | succ n ih =>
    unfold onOver
    split
    · have := ih (pos + 1)
      omega
    · omega

theorem lineWordEnd_le (t : Text) : lineWordEnd t ≤ t.len := by
  unfold lineWordEnd
  split
  · exact Nat.le_refl _
  · have first := onOver_le (· = space) t.buf t.pos (t.len - t.pos)
    have second := onOver_le (· ≠ space) t.buf (onOver (· = space) t.buf t.pos (t.len - t.pos))
      (t.len - onOver (· = space) t.buf t.pos (t.len - t.pos))
    dsimp only
    omega

theorem Text.Line.mono {more : List UInt8} (line : t.Line cap known) (sub : known ⊆ more) : t.Line cap more :=
  ⟨line.pos, line.len, fun i lt => sub (line.chars i lt)⟩

/-- A character that goes in is written inside the buffer. -/
theorem lineInsert_line {c : UInt8} (line : t.Line cap known) (mem : c ∈ known) :
    ∃ t', lineInsert cap t c = some t' ∧ t'.pos = t.pos ∧ t'.Line cap known ∧
      t'.len = if cap ≤ t.len + 1 then t.len else t.len + 1 := by
  unfold lineInsert
  have pos := line.pos
  have len := line.len
  split
  · exact ⟨t, rfl, rfl, line, rfl⟩
  next room =>
    have at_ : min t.pos t.len = t.pos := Nat.min_eq_left pos
    simp only [at_, move, put]
    rw [if_pos ⟨by omega, by omega⟩]
    simp only [Option.bind_eq_bind, Option.bind_some]
    rw [if_pos (by omega)]
    simp only [Option.bind_some]
    rw [if_pos (by omega)]
    refine ⟨_, rfl, rfl, ⟨by dsimp only; omega, by dsimp only; omega, fun i lt => ?_⟩, rfl⟩
    dsimp only at lt ⊢
    split
    · omega
    · split
      · exact mem
      · split
        · exact line.chars _ (by omega)
        · exact line.chars i (by omega)

/-- So is a text that goes in, and the cursor stays in the line. -/
theorem insertAll_line {text : List UInt8} (line : t.Line cap known) (sub : text ⊆ known) :
    ∃ t', insertAll cap t text = some t' ∧ t'.Line cap known := by
  induction text generalizing t with
  | nil => exact ⟨t, rfl, line⟩
  | cons c text ih =>
    unfold insertAll
    split
    next room =>
      obtain ⟨t', put_, pos, line', len⟩ := lineInsert_line line (sub List.mem_cons_self)
      rw [put_]
      simp only [Option.bind_eq_bind, Option.bind_some]
      rw [if_neg (by omega)] at len
      refine ih ⟨?_, line'.len, line'.chars⟩ fun x mem => sub (List.mem_cons_of_mem c mem)
      have := line.pos
      dsimp only
      omega
    · exact ⟨t, rfl, line⟩

theorem lineDeleteBack_line (line : t.Line cap known) (count : Nat) :
    ∃ t', lineDeleteBack cap t count = some t' ∧ t'.Line cap known := by
  have pos := line.pos
  have len := line.len
  have at_ : min t.pos t.len = t.pos := Nat.min_eq_left pos
  unfold lineDeleteBack
  simp only [at_, move, put]
  split
  · exact ⟨t, rfl, line⟩
  · rw [if_pos ⟨by omega, by omega⟩]
    simp only [Option.bind_eq_bind, Option.bind_some]
    rw [if_pos (by omega)]
    refine ⟨_, rfl, by dsimp only; omega, by dsimp only; omega, fun i lt => ?_⟩
    dsimp only at lt ⊢
    split
    · omega
    · split <;> exact line.chars _ (by omega)

theorem lineDeleteAt_line (line : t.Line cap known) : ∃ t', lineDeleteAt cap t = some t' ∧ t'.Line cap known := by
  have len := line.len
  unfold lineDeleteAt
  split
  · exact ⟨t, rfl, line⟩
  · simp only [move, put]
    rw [if_pos ⟨by omega, by omega⟩]
    simp only [Option.bind_eq_bind, Option.bind_some]
    rw [if_pos (by omega)]
    refine ⟨_, rfl, by dsimp only; omega, by dsimp only; omega, fun i lt => ?_⟩
    dsimp only at lt ⊢
    split
    · omega
    · split <;> exact line.chars _ (by omega)

/-! ### The keys -/

/-- The editor's line is one, and so is what it suggests made of what was offered. -/
structure Editor.Sound (cap : Nat) (e : Editor) : Prop where
  line : e.text.Line cap e.known
  ghost : e.ghost ⊆ e.known

theorem lineGhost_subset (cands : List (List UInt8)) (typed : List UInt8) (cap : Nat) :
    lineGhost cands typed cap ⊆ cands.flatten := by
  intro c mem
  unfold lineGhost at mem
  split at mem
  next cand =>
    split at mem
    · simpa using List.mem_of_mem_drop (List.mem_of_mem_take mem)
    · exact absurd mem List.not_mem_nil
  · exact absurd mem List.not_mem_nil

theorem commonPrefix_subset (first : List UInt8) (others : List (List UInt8)) :
    Console.lineCommonPrefix first others ⊆ first := by
  induction first generalizing others with
  | nil => exact List.nil_subset _
  | cons c first ih =>
    unfold Console.lineCommonPrefix
    split
    · exact List.cons_subset_cons c (ih _)
    · exact List.nil_subset _

theorem lineCommonPrefix_subset (cands : List (List UInt8)) (cap : Nat) :
    lineCommonPrefix cands cap ⊆ cands.flatten := by
  cases cands with
  | nil => exact List.nil_subset _
  | cons first others =>
    intro c mem
    rw [List.flatten_cons]
    exact List.mem_append_left _ (commonPrefix_subset first others (List.mem_of_mem_take mem))

theorem refreshGhost_sound (line : e.text.Line cap e.known) : (refreshGhost src e).Sound cap := by
  unfold refreshGhost
  split
  · exact ⟨line, List.nil_subset _⟩
  · dsimp only
    split
    · exact ⟨line, List.nil_subset _⟩
    · exact ⟨line.mono (List.subset_append_left _ _),
        fun c mem => List.mem_append_right _ (lineGhost_subset _ _ _ mem)⟩

theorem edited_sound (line : t.Line cap e.known) : (edited src e t).Sound cap := refreshGhost_sound line

theorem recalled_line (some_ : 1 ≤ cap) (line : e.text.Line cap e.known) (by_ : Int) :
    ∃ e', recalled src cap e by_ = some e' ∧ e'.text.Line cap e'.known := by
  unfold recalled
  split
  · exact ⟨e, rfl, line⟩
  · dsimp only
    split
    · exact ⟨_, rfl, line⟩
    next h _ =>
      have short : (h.take (cap - 1)).length < cap := by
        rw [List.length_take]
        omega
      rw [fill, if_pos short]
      refine ⟨_, rfl, Nat.le_refl _, short, fun i lt => List.mem_append_right _ ?_⟩
      dsimp only at lt ⊢
      rw [if_pos lt, List.getD_eq_getElem _ _ lt]
      exact List.mem_of_mem_take (List.getElem_mem lt)

theorem keyed_line (some_ : 1 ≤ cap) (sound : e.Sound cap) (key : Key) :
    ∃ e', keyed src cap e key = some e' ∧ e'.text.Line cap e'.known := by
  have line := sound.line
  have pos := line.pos
  cases key with
  | left => exact ⟨_, rfl, by dsimp only; omega, line.len, line.chars⟩
  | right =>
    simp only [keyed]
    split
    · obtain ⟨text, put_, line'⟩ := insertAll_line line sound.ghost
      rw [put_]
      exact ⟨_, rfl, line'⟩
    · split
      next less => exact ⟨_, rfl, less, line.len, line.chars⟩
      · exact ⟨e, rfl, line⟩
  | home => exact ⟨_, rfl, Nat.zero_le _, line.len, line.chars⟩
  | end_ =>
    simp only [keyed]
    split
    · obtain ⟨text, put_, line'⟩ := insertAll_line line sound.ghost
      rw [put_]
      exact ⟨_, rfl, Nat.le_refl _, line'.len, line'.chars⟩
    · exact ⟨_, rfl, Nat.le_refl _, line.len, line.chars⟩
  | wordLeft =>
    have le := lineWordStart_le e.text
    exact ⟨_, rfl, by dsimp only; omega, line.len, line.chars⟩
  | wordRight => exact ⟨_, rfl, lineWordEnd_le e.text, line.len, line.chars⟩
  | delete =>
    obtain ⟨text, gone, line'⟩ := lineDeleteAt_line line
    exact ⟨_, by rw [keyed, gone]; rfl, line'⟩
  | up => exact recalled_line some_ line 1
  | down => exact recalled_line some_ line (-1)
  | unknown => exact ⟨e, rfl, line⟩

/-- The word in front of the cursor goes out, and the length loses as much of it or less. -/
theorem taken_line {ws plen : Nat} (line : t.Line cap known) (le : ws ≤ t.pos) (some_ : plen ≤ t.pos - ws) :
    ∃ buf, move cap t.buf ws t.pos (t.len - t.pos) = some buf ∧ Text.Line cap known ⟨buf, t.len - plen, ws⟩ := by
  have pos := line.pos
  have len := line.len
  rw [move, if_pos ⟨by omega, by omega⟩]
  refine ⟨_, rfl, by dsimp only; omega, by dsimp only; omega, fun i lt => ?_⟩
  dsimp only at lt ⊢
  split <;> exact line.chars _ (by omega)

/-- The tab key leaves a line, even where the length loses less than the word that is taken out. -/
theorem tab_sound (sound : e.Sound cap) : ∃ e', tab src cap e = some e' ∧ e'.Sound cap := by
  have line := sound.line
  have le := lineWordStart_le e.text
  unfold tab
  split
  · exact ⟨e, rfl, sound⟩
  · dsimp only
    generalize src.candidates e compMax
      (e.text.bytes (lineWordStart e.text) (min (e.text.pos - lineWordStart e.text) (compLen - 1)))
      (lineWordStart e.text) = cands
    have wider : e.known ⊆ e.known ++ cands.flatten := List.subset_append_left _ _
    have common : lineCommonPrefix cands compLen ⊆ e.known ++ cands.flatten := fun c mem =>
      List.mem_append_right _ (lineCommonPrefix_subset cands compLen mem)
    split
    · exact ⟨_, rfl, line.mono wider, fun c mem => wider (sound.ghost mem)⟩
    · split
      · have before : lineWordStart e.text ≤ e.text.pos := le.trans (Nat.min_le_left _ _)
        obtain ⟨buf, moved, out⟩ := taken_line (line.mono wider) before (Nat.min_le_left _ (compLen - 1))
        obtain ⟨text, put_, line'⟩ := insertAll_line out common
        rw [moved]
        simp only [Option.bind_eq_bind, Option.bind_some]
        rw [put_]
        simp only [Option.bind_some]
        split
        · obtain ⟨text', put', line''⟩ := insertAll_line (line'.mono (List.subset_append_left _ [space]))
            (List.subset_append_right _ [space])
          rw [put']
          exact ⟨_, rfl, refreshGhost_sound line''⟩
        · exact ⟨_, rfl, refreshGhost_sound line'⟩
      · exact ⟨_, rfl, refreshGhost_sound (line.mono wider)⟩

/-- A character that is typed goes in, or the line is full and stays. -/
theorem typed_sound (sound : e.Sound cap) (c : UInt8) :
    ∃ e', (lineInsert cap e.text c).map (fun text =>
      if text.len ≠ e.text.len then edited src { e with known := e.known ++ [c] } { text with pos := text.pos + 1 }
      else { e with text }) = some e' ∧ e'.Sound cap := by
  have line := sound.line
  have pos := line.pos
  have wider : e.known ⊆ e.known ++ [c] := List.subset_append_left _ _
  obtain ⟨text, put_, at_, line', grown⟩ :=
    lineInsert_line (line.mono wider) (List.mem_append_right e.known (List.mem_singleton_self c))
  by_cases full : cap ≤ e.text.len + 1
  · rw [lineInsert, if_pos full, Option.map_some]
    exact ⟨_, rfl, by rw [if_neg (not_not_intro rfl)]; exact sound⟩
  · rw [if_neg full] at grown
    rw [put_, Option.map_some, if_pos (by omega)]
    exact ⟨_, rfl, edited_sound ⟨by dsimp only; omega, line'.len, line'.chars⟩⟩

theorem plain_sound (some_ : 1 ≤ cap) (sound : e.Sound cap) (c : UInt8) :
    ∃ e', plain src cap e c = some e' ∧ e'.Sound cap := by
  have line := sound.line
  have pos := line.pos
  have len := line.len
  have back (count : Nat) : ∃ e', (lineDeleteBack cap e.text count).map (edited src e) = some e' ∧ e'.Sound cap := by
    obtain ⟨text, gone, line'⟩ := lineDeleteBack_line line count
    exact ⟨_, by rw [gone]; rfl, edited_sound line'⟩
  unfold plain
  by_cases cancel : c = 0x03
  · rw [if_pos cancel, put, if_pos (by omega)]
    exact ⟨_, rfl, ⟨Nat.le_refl 0, by dsimp only; omega, fun i lt => absurd lt (Nat.not_lt_zero i)⟩, sound.ghost⟩
  rw [if_neg cancel]
  by_cases backspace : c = 0x7F ∨ c = 0x08
  · rw [if_pos backspace]
    exact back 1
  rw [if_neg backspace]
  by_cases word : c = 0x17
  · rw [if_pos word]
    exact back _
  rw [if_neg word]
  by_cases start : c = 0x15
  · rw [if_pos start]
    exact back _
  rw [if_neg start]
  by_cases kill : c = 0x0B
  · rw [if_pos kill, put, if_pos (by omega)]
    refine ⟨_, rfl, refreshGhost_sound ⟨Nat.le_refl _, by dsimp only; omega, fun i lt => ?_⟩⟩
    dsimp only at lt ⊢
    rw [if_neg (by omega)]
    exact line.chars i (by omega)
  rw [if_neg kill]
  by_cases home : c = 0x01
  · rw [if_pos home]
    exact ⟨_, rfl, refreshGhost_sound ⟨Nat.zero_le _, len, line.chars⟩⟩
  rw [if_neg home]
  by_cases ending : c = 0x05
  · rw [if_pos ending]
    exact ⟨_, rfl, refreshGhost_sound ⟨Nat.le_refl _, len, line.chars⟩⟩
  rw [if_neg ending]
  by_cases completes : c = 0x09
  · rw [if_pos completes]
    exact tab_sound sound
  rw [if_neg completes]
  by_cases printed : 0x20 ≤ c ∧ c < 0x7F
  · rw [if_pos printed]
    exact typed_sound sound c
  · rw [if_neg printed]
    exact ⟨e, rfl, sound⟩

/-- A pass of the loop goes through, and what it comes to is a line again or the line with its end marked. -/
theorem pass_sound (some_ : 1 ≤ cap) (sound : e.Sound cap) (rest : List (Option UInt8)) :
    ∃ o, pass src cap e rest = some o ∧ (∀ e' rest', o = .on e' rest' → e'.Sound cap) ∧
      ∀ buf len, o = .returned buf len →
        len = e.text.len ∧ len < cap ∧ buf len = 0 ∧ ∀ i < len, buf i ∈ e.known := by
  have line := sound.line
  have len := line.len
  have on {e' : Editor} {rest' : List (Option UInt8)} (sound' : e'.Sound cap) :
      (∀ e'' rest'', Outcome.on e' rest' = .on e'' rest'' → e''.Sound cap) ∧
      ∀ buf len, Outcome.on e' rest' = .returned buf len →
        len = e.text.len ∧ len < cap ∧ buf len = 0 ∧ ∀ i < len, buf i ∈ e.known := by
    refine ⟨fun e'' rest'' same => ?_, fun buf len same => ?_⟩
    · cases same
      exact sound'
    · cases same
  rcases rest with _ | ⟨_ | c, stream⟩
  · exact ⟨_, rfl, on sound⟩
  · exact ⟨_, rfl, on sound⟩
  · simp only [pass]
    split
    · rw [put, if_pos len]
      refine ⟨_, rfl, fun e' rest' same => Outcome.noConfusion same, fun buf n same => ?_⟩
      cases same
      refine ⟨rfl, len, if_pos rfl, fun i lt => ?_⟩
      dsimp only
      rw [if_neg (by omega)]
      exact line.chars i lt
    split
    · split
      · exact ⟨_, rfl, on sound⟩
      · obtain ⟨e', went, line'⟩ := keyed_line some_ sound (lineDecodeEscape (collectEscape 12 [] stream).1)
        rw [went]
        exact ⟨_, rfl, on (refreshGhost_sound line')⟩
    · obtain ⟨e', went, sound'⟩ := plain_sound some_ sound c
      rw [went]
      exact ⟨_, rfl, on sound'⟩

theorem reached_sound {memory : Nat → UInt8} {stream rest : List (Option UInt8)} (some_ : 1 ≤ cap)
    (reached : Reached src cap memory stream e rest) : e.Sound cap := by
  induction reached with
  | start => exact ⟨⟨Nat.le_refl 0, some_, fun i lt => absurd lt (Nat.not_lt_zero i)⟩, List.nil_subset _⟩
  | @pass e e' rest rest' before went ih =>
    obtain ⟨o, goes, on, _⟩ := pass_sound some_ ih rest
    exact on e' rest' (Option.some.inj (goes.symm.trans went))

/-- In a buffer of some room the line begins and every pass of the loop goes through, so nothing is written outside; at
its head the cursor is in the line, the line is in the buffer and made of what was typed, recalled or completed; and
what is returned is that line with a NUL behind it. -/
theorem lineEdit_sound (src : Sources) (cap : Nat) (memory : Nat → UInt8) (stream : List (Option UInt8))
    (some_ : 1 ≤ cap) :
    (∃ buf, put cap memory 0 0 = some buf) ∧
    ∀ e rest, Reached src cap memory stream e rest →
      e.text.Line cap e.known ∧
      ∃ o, pass src cap e rest = some o ∧
        ∀ buf len, o = .returned buf len →
          len = e.text.len ∧ len < cap ∧ buf len = 0 ∧ ∀ i < len, buf i ∈ e.known := by
  refine ⟨⟨_, if_pos some_⟩, fun e rest reached => ?_⟩
  have sound := reached_sound some_ reached
  obtain ⟨o, goes, _, returned⟩ := pass_sound some_ sound rest
  exact ⟨sound.line, o, goes, returned⟩

/-- Sources that offer one word. -/
def oneWord : Sources where
  complete := some fun _ _ _ index => if index = 0 then some [0x6C, 0x73] else none
  history := none

/-- `l`, which the tab key completes, and the left arrow. -/
def arrowed : List (Option UInt8) := [some 0x6C, some 0x09, some 0x1B, some 0x5B, some 0x44, some 0x0D]

theorem lineEdit_sound_arrowed : ∃ e, Reached oneWord 8 (fun _ => 0xFF) arrowed e [some 0x0D] ∧
    e.text.len = 3 ∧ e.text.pos = 2 ∧ e.text.Line 8 e.known ∧
    ∃ o, pass oneWord 8 e [some 0x0D] = some o ∧
      ∀ buf len, o = .returned buf len → len = e.text.len ∧ len < 8 ∧ buf len = 0 ∧ ∀ i < len, buf i ∈ e.known := by
  have start := @Reached.start oneWord 8 (fun _ => 0xFF) arrowed _ rfl
  have reached := Reached.pass (Reached.pass (Reached.pass start rfl) rfl) rfl
  exact ⟨_, reached, rfl, rfl, (lineEdit_sound oneWord 8 (fun _ => 0xFF) _ (by decide)).2 _ _ reached⟩

/-! ### The line as a text -/

/-- The characters of the line. -/
def Text.chars (t : Text) : List UInt8 := t.bytes 0 t.len

@[simp] theorem bytes_length (t : Text) (i n : Nat) : (t.bytes i n).length = n := by
  rw [Text.bytes, List.length_map, List.length_range]

@[simp] theorem chars_length (t : Text) : t.chars.length = t.len := bytes_length t 0 t.len

theorem getElem_bytes (t : Text) {i n j : Nat} (lt : j < (t.bytes i n).length) : (t.bytes i n)[j] = t.buf (i + j) := by
  simp [Text.bytes]

theorem getElem_chars (t : Text) {j : Nat} (lt : j < t.chars.length) : t.chars[j] = t.buf j := by
  rw [show t.chars[j] = t.buf (0 + j) from getElem_bytes t lt, Nat.zero_add]

/-- Going back over bytes is dropping them from the end. -/
theorem backOver_eq (p : UInt8 → Bool) (buf : Nat → UInt8) (pos : Nat) :
    backOver p buf pos = (((List.range pos).map buf).reverse.dropWhile p).length ∧
      ((List.range pos).map buf).reverse.dropWhile p = ((List.range (backOver p buf pos)).map buf).reverse := by
  induction pos with
  | zero => exact ⟨rfl, rfl⟩
  | succ pos ih =>
    have last : ((List.range (pos + 1)).map buf).reverse = buf pos :: ((List.range pos).map buf).reverse := by
      rw [List.range_succ, List.map_append, List.reverse_append]
      rfl
    unfold backOver
    rw [last, List.dropWhile_cons]
    split
    · exact ih
    · refine ⟨?_, last.symm⟩
      rw [List.length_cons, List.length_reverse, List.length_map, List.length_range]

theorem lineWordStart_chars (line : t.pos ≤ t.len) : Console.lineWordStart t.chars t.pos = lineWordStart t := by
  have before : t.chars.take t.pos = (List.range t.pos).map t.buf := by
    rw [Text.chars, Text.bytes, ← List.map_take, List.take_range, Nat.min_eq_left line]
    exact List.map_congr_left fun j _ => congrArg t.buf (Nat.zero_add j)
  unfold Console.lineWordStart lineWordStart
  dsimp only
  rw [before, Nat.min_eq_left line, (backOver_eq (· = space) t.buf t.pos).2, ← (backOver_eq (· ≠ space) t.buf _).1]

/-- A character goes into the line as into its text. -/
theorem lineInsert_chars {t' : Text} {c : UInt8} (line : t.pos ≤ t.len) (put_ : lineInsert cap t c = some t') :
    t'.chars = Console.lineInsert t.chars cap t.pos c ∧ t'.pos = t.pos := by
  unfold lineInsert at put_
  unfold Console.lineInsert
  rw [chars_length]
  split at put_
  next full =>
    cases put_
    rw [if_pos full]
    exact ⟨rfl, rfl⟩
  next room =>
    rw [if_neg room]
    have at_ : min t.pos t.len = t.pos := Nat.min_eq_left line
    simp only [at_, move, put] at put_
    rw [if_pos ⟨by omega, by omega⟩] at put_
    simp only [Option.bind_eq_bind, Option.bind_some] at put_
    rw [if_pos (by omega)] at put_
    simp only [Option.bind_some] at put_
    rw [if_pos (by omega)] at put_
    cases put_
    refine ⟨List.ext_getElem ?_ fun j lt lt' => ?_, rfl⟩
    · simp only [chars_length, List.length_append, List.length_cons, List.length_take, List.length_drop]
      omega
    · have fits : j < t.len + 1 := by
        rwa [chars_length] at lt
      rw [getElem_chars, List.getElem_append]
      simp only [List.length_take, chars_length, Nat.min_eq_left line]
      by_cases before : j < t.pos
      · rw [if_neg (by omega), if_neg (by omega), if_neg (by omega), dif_pos before, List.getElem_take, getElem_chars]
      · rw [dif_neg before]
        by_cases here : j = t.pos
        · subst here
          rw [if_neg (by omega), if_pos rfl]
          simp
        · obtain ⟨k, behind⟩ : ∃ k, j = t.pos + (k + 1) := ⟨j - t.pos - 1, by omega⟩
          subst behind
          rw [if_neg (by omega), if_neg (by omega), if_pos (by omega)]
          simp only [Nat.add_sub_cancel_left, List.getElem_cons_succ, List.getElem_drop, getElem_chars]
          exact congrArg t.buf (by omega)

theorem insertAll_chars {t' : Text} {text : List UInt8} (line : t.pos ≤ t.len)
    (put_ : insertAll cap t text = some t') :
    Console.insertAll cap t.chars t.pos text = (t'.chars, t'.pos) ∧ t'.pos ≤ t'.len := by
  induction text generalizing t with
  | nil =>
    cases put_
    exact ⟨rfl, line⟩
  | cons c text ih =>
    unfold insertAll at put_
    unfold Console.insertAll
    rw [chars_length]
    split at put_
    next room =>
      rw [if_pos room]
      obtain ⟨t₁, first, rest⟩ := Option.bind_eq_some_iff.mp put_
      obtain ⟨chars, pos⟩ := lineInsert_chars line first
      have grown : t₁.len = t.len + 1 := by
        have size := congrArg List.length chars
        rw [chars_length, Console.lineInsert, chars_length, if_neg (by omega)] at size
        simp only [List.length_append, List.length_cons, List.length_take, List.length_drop, chars_length] at size
        omega
      rw [← chars, ← pos]
      exact @ih { t₁ with pos := t₁.pos + 1 } (by dsimp only; omega) rest
    next full =>
      cases put_
      rw [if_neg full]
      exact ⟨rfl, line⟩

theorem bytes_eq {i n : Nat} (fits : i + n ≤ t.len) : t.bytes i n = (t.chars.drop i).take n := by
  refine List.ext_getElem ?_ fun j lt lt' => ?_
  · simp only [bytes_length, List.length_take, List.length_drop, chars_length]
    omega
  · rw [getElem_bytes, List.getElem_take, List.getElem_drop, getElem_chars]

/-- What is left of the line when the word in front of the cursor goes out. -/
theorem taken_chars {ws plen : Nat} {buf : Nat → UInt8} (line : t.pos ≤ t.len) (le : ws ≤ t.pos)
    (moved : move cap t.buf ws t.pos (t.len - t.pos) = some buf) :
    Text.chars ⟨buf, t.len - plen, ws⟩ =
      (t.chars.take ws ++ t.chars.drop t.pos ++ t.chars.drop (ws + (t.len - t.pos))).take (t.len - plen) := by
  unfold move at moved
  split at moved
  · cases moved
    refine List.ext_getElem ?_ fun j lt lt' => ?_
    · simp only [chars_length, List.length_take, List.length_append, List.length_drop]
      omega
    · have fits : j < t.len - plen := by
        rwa [chars_length] at lt
      rw [getElem_chars, List.getElem_take]
      simp only [List.getElem_append, List.length_append, List.length_take, List.length_drop, chars_length,
        Nat.min_eq_left (le.trans line), List.getElem_take, List.getElem_drop, getElem_chars]
      by_cases before : j < ws
      · rw [if_neg (by omega), dif_pos (by omega), dif_pos before]
      · rw [dif_neg before]
        split
        · rw [dif_pos (by omega)]
          exact congrArg t.buf (by omega)
        · rw [dif_neg (by omega)]
          exact congrArg t.buf (by omega)
  · cases moved

@[simp] theorem refreshGhost_text (src : Sources) (e : Editor) : (refreshGhost src e).text = e.text := by
  unfold refreshGhost
  split
  · rfl
  · dsimp only
    split <;> rfl

/-- The character behind the cursor, if there is one. -/
theorem behind_cursor (line : t.pos ≤ t.len) :
    (t.pos = t.len ∨ t.chars.getD t.pos 0 ≠ space) ↔ (t.pos = t.len ∨ t.buf t.pos ≠ space) := by
  by_cases last : t.pos = t.len
  · simp [last]
  · have lt : t.pos < t.chars.length := by
      rw [chars_length]
      omega
    rw [List.getD_eq_getElem _ _ lt, getElem_chars]

/-- The tab key does to the line what it does to a list. -/
theorem tab_list {complete : Nat → List UInt8 → Nat → Nat → Option (List UInt8)}
    {history : Option (Nat → Nat → Option (List UInt8))} {e' : Editor} (line : e.text.pos ≤ e.text.len)
    (tabbed : tab ⟨some complete, history⟩ cap e = some e') :
    Console.tab (fun typed ws index _ => complete e.asked typed ws index) cap e.text.chars e.text.pos =
      (e'.text.chars, e'.text.pos) := by
  have le := lineWordStart_le e.text
  have typed := @bytes_eq e.text (lineWordStart e.text) (min (e.text.pos - lineWordStart e.text) (compLen - 1))
    (by omega)
  unfold tab at tabbed
  unfold Console.tab
  simp only [Option.isNone_some, Bool.false_eq_true, if_false] at tabbed
  rw [lineWordStart_chars line]
  dsimp only
  rw [← typed]
  have asked : collect (complete e.asked (e.text.bytes (lineWordStart e.text)
      (min (e.text.pos - lineWordStart e.text) (compLen - 1))) (lineWordStart e.text)) compMax 0 =
    Sources.candidates ⟨some complete, history⟩ e compMax (e.text.bytes (lineWordStart e.text)
      (min (e.text.pos - lineWordStart e.text) (compLen - 1))) (lineWordStart e.text) := rfl
  rw [asked]
  generalize Sources.candidates ⟨some complete, history⟩ e compMax (e.text.bytes (lineWordStart e.text)
    (min (e.text.pos - lineWordStart e.text) (compLen - 1))) (lineWordStart e.text) = cands at tabbed
  cases cands with
  | nil =>
    rw [if_pos rfl] at tabbed
    cases tabbed
    rfl
  | cons first others =>
    rw [if_neg (List.cons_ne_nil first others), lineCommonPrefix] at tabbed
    dsimp only at tabbed ⊢
    split at tabbed
    next differs =>
      obtain ⟨buf, moved, tabbed⟩ := Option.bind_eq_some_iff.mp tabbed
      obtain ⟨text, put_, tabbed⟩ := Option.bind_eq_some_iff.mp tabbed
      obtain ⟨inserted, inside⟩ := insertAll_chars (by dsimp only; omega) put_
      rw [taken_chars line (by omega) moved] at inserted
      rw [if_neg differs, chars_length, inserted]
      dsimp only
      rw [chars_length]
      have behind := behind_cursor inside
      by_cases sole : others = [] ∧ (text.pos = text.len ∨ text.buf text.pos ≠ space)
      · rw [if_pos ⟨by rw [sole.1]; rfl, sole.2⟩] at tabbed
        obtain ⟨text', put', tabbed⟩ := Option.bind_eq_some_iff.mp tabbed
        cases tabbed
        have blank := (insertAll_chars inside put').1
        simp only [Console.insertAll, chars_length] at blank
        rw [refreshGhost_text, ← blank]
        by_cases room : text.len + 1 < cap
        · rw [if_pos room, if_pos ⟨sole.1, room, behind.mpr sole.2⟩]
        · rw [if_neg room, if_neg fun all => room all.2.1]
      · rw [if_neg fun all => sole ⟨List.length_eq_zero_iff.mp (Nat.succ.inj all.1), all.2⟩] at tabbed
        cases tabbed
        rw [refreshGhost_text, if_neg fun all => sole ⟨all.1, behind.mp all.2.2⟩]
    next same =>
      cases tabbed
      rw [if_pos (not_not.mp same), refreshGhost_text]

/-- The line with the word before the cursor replaced by what the candidates share, and the cursor behind it: nothing is
replaced where there is no candidate, or nothing that they would change. -/
def completed (cap : Nat) (line : List UInt8) (pos : Nat) (cands : List (List UInt8)) : List UInt8 × Nat :=
  match cands with
  | [] => (line, pos)
  | first :: others =>
    let common := (Console.lineCommonPrefix first others).take (compLen - 1)
    if common = Console.wordAt line pos then (line, pos)
    else Console.replacing cap line pos (Console.ended (line.drop pos) others common)

/-- The tab key goes through, and completes a word that is shorter than a candidate's buffer as it would in a list of
characters. -/
theorem tab_chars {complete : Nat → List UInt8 → Nat → Nat → Option (List UInt8)}
    {history : Option (Nat → Nat → Option (List UInt8))} (sound : e.Sound cap)
    (short : (Console.wordAt e.text.chars e.text.pos).length < compLen) :
    let line := e.text.chars
    let word := Console.wordAt line e.text.pos
    ∃ e', tab ⟨some complete, history⟩ cap e = some e' ∧
      (e'.text.chars, e'.text.pos) = completed cap line e.text.pos
        (collect (complete e.asked word (Console.lineWordStart line e.text.pos)) compMax 0) := by
  have pos := sound.line.pos
  have inside : e.text.pos ≤ e.text.chars.length := by rwa [chars_length]
  have fits : e.text.chars.length < cap := by
    rw [chars_length]
    exact sound.line.len
  have size := Console.wordAt_length inside
  have compLen_eq : compLen = 96 := rfl
  have whole : (Console.wordAt e.text.chars e.text.pos).take (compLen - 1) = Console.wordAt e.text.chars e.text.pos :=
    List.take_of_length_le (by omega)
  obtain ⟨e', tabbed, -⟩ := @tab_sound cap ⟨some complete, history⟩ e sound
  refine ⟨e', tabbed, ?_⟩
  rw [← tab_list pos tabbed]
  unfold Console.tab
  dsimp only
  rw [Console.typed_eq, whole]
  cases collect (complete e.asked (Console.wordAt e.text.chars e.text.pos)
    (Console.lineWordStart e.text.chars e.text.pos)) compMax 0 with
  | nil => rfl
  | cons first others =>
    rw [completed]
    dsimp only
    split
    · rfl
    · have taken : min (e.text.pos - Console.lineWordStart e.text.chars e.text.pos) (compLen - 1) =
          (Console.wordAt e.text.chars e.text.pos).length := by omega
      rw [← Console.spaced_replaced inside fits, taken]
      rfl

/-- `x l`, and a word that `l` begins. -/
theorem tab_chars_sole :
    let complete (_ : Nat) (_ : List UInt8) (_ index : Nat) : Option (List UInt8) :=
      if index = 0 then some [0x6C, 0x73] else none
    let e : Editor := ⟨⟨fun i => [0x78, 0x20, 0x6C].getD i 0, 3, 3⟩, -1, [], 0, [0x78, 0x20, 0x6C]⟩
    ∃ e', tab ⟨some complete, none⟩ 16 e = some e' ∧
      (e'.text.chars, e'.text.pos) = ([0x78, 0x20, 0x6C, 0x73, 0x20], 5) := by
  intro complete e
  have sound : e.Sound 16 := ⟨⟨by decide, by decide, by decide⟩, List.nil_subset _⟩
  obtain ⟨e', tabbed, same⟩ := @tab_chars 16 e complete none sound (by decide)
  exact ⟨e', tabbed, same.trans (by decide +kernel)⟩

end RPCortex.Lineedit
