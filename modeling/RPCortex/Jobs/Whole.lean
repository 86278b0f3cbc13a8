import RPCortex.Jobs.Schedule
import RPCortex.Lib.CNumber
import RPCortex.Shell.Quoting

/-! What the shell hands on: the texts that the expansion of an alias, `bg`, `watch` and the lists of `jobs.cpp` put
into buffers and run, and the words that a command is called with. -/

namespace RPCortex.Jobs

open Lib Shell

/-! ### Copies into a buffer -/

/-- `strncat` with the room that is left in a buffer of `cap` bytes. -/
def strncat (cap : Nat) (line src : List UInt8) : List UInt8 := line ++ src.take (cap - line.length - 1)

/-- The loop by which `cmd_bg`, `cmd_watch` and `list_command` put words together in a buffer of `cap` bytes. -/
def joinInto (cap : Nat) : List (List UInt8) → List UInt8
  | [] => []
  | w :: ws => ws.foldl (fun line w => strncat cap (strncat cap line [blank]) w) (strncat cap [] w)

/-- The words, joined by single spaces. -/
def joined : List (List UInt8) → List UInt8
  | [] => []
  | w :: ws => w ++ ws.flatMap (blank :: ·)

theorem strncat_take {cap : Nat} (text src : List UInt8) :
    strncat cap (text.take (cap - 1)) src = (text ++ src).take (cap - 1) := by
  rw [strncat, List.take_append, List.length_take]
  congr 2
  omega

theorem joinInto_eq (cap : Nat) (ws : List (List UInt8)) : joinInto cap ws = (joined ws).take (cap - 1) := by
  cases ws with
  | nil => simp [joinInto, joined]
  | cons w ws =>
    suffices ∀ text : List UInt8, ws.foldl (fun line w => strncat cap (strncat cap line [blank]) w) (text.take (cap - 1)) =
        (text ++ ws.flatMap (blank :: ·)).take (cap - 1) by
      have first := @strncat_take cap [] w
      rw [List.take_nil, List.nil_append] at first
      rw [joinInto, first, this w, joined]
    induction ws with
    | nil => simp
    | cons v ws ih =>
      intro text
      rw [List.foldl_cons, strncat_take, strncat_take, ih]
      simp

/-! ### The entries of a list -/

/-- `is_skip`: a line without a command. -/
def isSkip (line : List UInt8) : Bool :=
  ((line.dropWhile fun c => c = 0x20 ∨ c = 0x09 ∨ c = 0x0D).head?.map (· == (0x23 : UInt8))).getD true

/-- The lines that `joblist_walk` passes on, before it copies them. -/
def entries (contents : List UInt8) : List (List UInt8) :=
  ((splitLines 0x0A contents).map (·.rdropWhile (· = 0x0D))).filter fun line => !isSkip line

/-- `cfg_read`, into a buffer of `CFG_BUF` bytes. -/
def cfgRead (contents : List UInt8) : List UInt8 := contents.take 1023

/-- The copy of a line that `joblist_walk` makes. -/
def walkedLine (line : List UInt8) : List UInt8 := cstr (line.take 159)

/-- The buffer of a list after `cfg_read`: it stays between calls, and what a longer file left stands behind the NUL. -/
def cfgBuf (buf contents : List UInt8) : List UInt8 :=
  cfgRead contents ++ 0 :: buf.drop ((cfgRead contents).length + 1)

/-- `joblist_walk` over so many bytes of a buffer, from a line that begins at `start` on.  What is run for an entry may
read the list into the buffer again: `again` is what the file holds then, by how many entries are passed on yet. -/
def joblistWalk (again : Nat → Option (List UInt8)) (len : Nat) :
    (fuel passed start : Nat) → (buf : List UInt8) → List (List UInt8)
  | 0, _, _, _ => []
  | fuel + 1, passed, start, buf =>
    if len < start then []
    else
      let raw := ((buf.take len).drop start).takeWhile (· ≠ 0x0A)
      let line := raw.rdropWhile (· = 0x0D)
      if isSkip line then joblistWalk again len fuel passed (start + raw.length + 1) buf
      else walkedLine line :: joblistWalk again len fuel (passed + 1) (start + raw.length + 1)
        (((again passed).map (cfgBuf buf)).getD buf)

/-- A list is read and its entries are passed on. -/
def walkList (again : Nat → Option (List UInt8)) (contents : List UInt8) : List (List UInt8) :=
  joblistWalk again (cfgRead contents).length ((cfgRead contents).length + 1) 0 0 (cfgBuf [] contents)

/-- Whenever the list is read again, it reads the same. -/
def Steady (again : Nat → Option (List UInt8)) (contents : List UInt8) : Prop :=
  ∀ k, ∀ now ∈ again k, cfgRead now = cfgRead contents

theorem cfgBuf_take (buf contents : List UInt8) :
    (cfgBuf buf contents).take (cfgRead contents).length = cfgRead contents := by
  rw [cfgBuf, List.take_left]

theorem entries_skip {line : List UInt8} (skip : isSkip (line.rdropWhile (· = 0x0D)) = true)
    (rest : List (List UInt8)) :
    ((line :: rest).map (·.rdropWhile (· = 0x0D))).filter (fun line => !isSkip line) =
      (rest.map (·.rdropWhile (· = 0x0D))).filter fun line => !isSkip line := by
  rw [List.map_cons, List.filter_cons, skip]
  rfl

/-- The lines of a text are its first and those behind it. -/
theorem splitLines_eq {text : List UInt8} (some_ : text ≠ []) : splitLines 0x0A text =
    text.takeWhile (· ≠ 0x0A) :: splitLines 0x0A (text.drop ((text.takeWhile (· ≠ 0x0A)).length + 1)) := by
  have inner : 0x0A ∉ text.takeWhile (· ≠ 0x0A) := fun mem => by simpa using List.mem_takeWhile_imp mem
  have whole := List.takeWhile_append_dropWhile (p := (· ≠ (0x0A : UInt8))) (l := text)
  have first := List.head?_dropWhile_not (fun c : UInt8 => decide (c ≠ 0x0A)) text
  cases behind : text.dropWhile (· ≠ 0x0A) with
  | nil =>
    rw [behind, List.append_nil] at whole
    rw [whole] at inner ⊢
    rw [splitLines_last inner some_, List.drop_of_length_le (Nat.le_succ _)]
    rfl
  | cons c rest =>
    rw [behind] at whole first
    have ends : c = 0x0A := by simpa using first
    generalize text.takeWhile (· ≠ 0x0A) = line at whole inner
    subst ends
    rw [← whole, splitLines_append inner]
    simp

/-- The walk over a list that stays as it is passes on its entries. -/
theorem walkList_steady {again : Nat → Option (List UInt8)} {contents : List UInt8} (steady : Steady again contents) :
    walkList again contents = (entries (cfgRead contents)).map walkedLine := by
  have all : ∀ fuel passed start buf, buf.take (cfgRead contents).length = cfgRead contents →
      (cfgRead contents).length + 1 ≤ fuel + start → joblistWalk again (cfgRead contents).length fuel passed start buf =
        (entries ((cfgRead contents).drop start)).map walkedLine := by
    intro fuel
    induction fuel with
    | zero =>
      intro passed start buf _ far
      rw [List.drop_of_length_le (by omega)]
      rfl
    | succ fuel ih =>
      intro passed start buf same far
      rw [joblistWalk]
      by_cases behind : (cfgRead contents).length ≤ start
      · rw [List.drop_of_length_le behind]
        split
        · rfl
        · rw [same, List.drop_of_length_le behind]
          exact (ih passed (start + 0 + 1) buf same (by omega)).trans (by rw [List.drop_of_length_le (by omega)])
      · have some_ : (cfgRead contents).drop start ≠ [] := by
          intro nil
          exact behind (List.drop_eq_nil_iff.mp nil)
        rw [if_neg (by omega), same, entries, splitLines_eq some_, List.drop_drop]
        dsimp only
        generalize ((cfgRead contents).drop start).takeWhile (· ≠ 0x0A) = raw
        by_cases skip : isSkip (raw.rdropWhile (· = 0x0D)) = true
        · rw [if_pos skip, entries_skip skip]
          exact ih passed (start + raw.length + 1) buf same (by omega)
        · rw [if_neg skip, List.map_cons, List.filter_cons_of_pos (by simpa using skip), List.map_cons]
          refine congrArg _ (ih (passed + 1) (start + raw.length + 1) _ ?_ (by omega))
          cases read : again passed with
          | none => exact same
          | some now =>
            have file := steady passed now read
            rw [Option.map_some, Option.getD_some, ← file, cfgBuf_take]
  exact all _ 0 0 _ (cfgBuf_take _ _) (Nat.le_refl _)

/-- The lists are the first of the whole ones, but for the last, which may be the front of its own. -/
def CutOf (part whole : List (List UInt8)) : Prop :=
  ∃ front last back, part = front ++ last ∧ whole = front ++ back ∧
    (last = [] ∨ ∃ cut line rest, last = [cut] ∧ back = line :: rest ∧ cut <+: line)

theorem cutOf_splitLines (k : Nat) (text : List UInt8) :
    CutOf (splitLines 0x0A (text.take k)) (splitLines 0x0A text) := by
  induction text generalizing k with
  | nil => exact ⟨[], [], [], by simp, by simp, .inl rfl⟩
  | cons c text ih =>
    cases k with
    | zero => exact ⟨[], [], _, by simp, rfl, .inl rfl⟩
    | succ k =>
      obtain ⟨front, last, back, part, whole, ends⟩ := ih k
      rw [List.take_succ_cons, splitLines, splitLines, part, whole]
      split
      · exact ⟨[] :: front, last, back, rfl, rfl, ends⟩
      · cases front with
        | cons line front => exact ⟨(c :: line) :: front, last, back, rfl, rfl, ends⟩
        | nil =>
          rcases ends with rfl | ⟨cut, line, rest, rfl, rfl, sub⟩
          · cases back with
            | nil => exact ⟨[], [[c]], [[c]], rfl, rfl, .inr ⟨[c], [c], [], rfl, rfl, List.prefix_rfl⟩⟩
            | cons line rest => exact ⟨[], [[c]], (c :: line) :: rest, rfl, rfl, .inr ⟨[c], _, rest, rfl, rfl, by simp⟩⟩
          · exact ⟨[], [c :: cut], (c :: line) :: rest, rfl, rfl, .inr ⟨_, _, rest, rfl, rfl, by simpa using sub⟩⟩

theorem CutOf.map {part whole : List (List UInt8)} (cut : CutOf part whole) {f : List UInt8 → List UInt8}
    (mono : ∀ {a b}, a <+: b → f a <+: f b) : CutOf (part.map f) (whole.map f) := by
  obtain ⟨front, last, back, rfl, rfl, ends⟩ := cut
  refine ⟨front.map f, last.map f, back.map f, List.map_append, List.map_append, ?_⟩
  rcases ends with rfl | ⟨cut, line, rest, rfl, rfl, sub⟩
  · exact .inl rfl
  · exact .inr ⟨f cut, f line, rest.map f, rfl, rfl, mono sub⟩

theorem CutOf.filter {part whole : List (List UInt8)} (cut : CutOf part whole) {p : List UInt8 → Bool}
    (mono : ∀ {a b}, a <+: b → p a = true → p b = true) : CutOf (part.filter p) (whole.filter p) := by
  obtain ⟨front, last, back, rfl, rfl, ends⟩ := cut
  refine ⟨front.filter p, last.filter p, back.filter p, List.filter_append .., List.filter_append .., ?_⟩
  rcases ends with rfl | ⟨cut, line, rest, rfl, rfl, sub⟩
  · exact .inl rfl
  · by_cases kept : p cut = true
    · exact .inr ⟨cut, line, rest.filter p, by simp [kept], by simp [mono sub kept], sub⟩
    · exact .inl (by simp [kept])

theorem rdropWhile_front {p : UInt8 → Bool} {a b : List UInt8} (sub : a <+: b) : a.rdropWhile p <+: b.rdropWhile p := by
  obtain ⟨t, rfl⟩ := sub
  induction t using List.reverseRecOn with
  | nil => simp
  | append_singleton t c ih =>
    rw [← List.append_assoc]
    by_cases gone : p c = true
    · rw [List.rdropWhile_concat_pos _ _ _ gone]
      exact ih
    · rw [List.rdropWhile_concat_neg _ _ _ gone]
      have shorter : List.rdropWhile p a <+: a := List.rdropWhile_prefix p a
      have longer : a <+: a ++ t := List.prefix_append a t
      exact (shorter.trans longer).trans (List.prefix_append _ _)

theorem notSkip_of_front {a b : List UInt8} (sub : a <+: b) (kept : (!isSkip a) = true) : (!isSkip b) = true := by
  obtain ⟨t, rfl⟩ := sub
  unfold isSkip at kept ⊢
  rw [List.dropWhile_append]
  cases behind : a.dropWhile (fun c => decide (c = 0x20 ∨ c = 0x09 ∨ c = 0x0D)) with
  | nil => rw [behind] at kept; exact absurd kept (by decide)
  | cons c rest =>
    rw [behind] at kept
    simpa using kept

theorem cutOf_entries (contents : List UInt8) : CutOf (entries (cfgRead contents)) (entries contents) :=
  ((cutOf_splitLines 1023 contents).map rdropWhile_front).filter notSkip_of_front

/-- The entries of a list, each with what is read of it. -/
def readEntries (contents : List UInt8) : List (List UInt8 × List UInt8) :=
  (entries contents).zip (entries (cfgRead contents))

theorem readEntries_front {contents : List UInt8} {e : List UInt8 × List UInt8} (mem : e ∈ readEntries contents) :
    e.2 <+: e.1 := by
  obtain ⟨front, last, back, part, whole, ends⟩ := cutOf_entries contents
  rw [readEntries, part, whole, List.zip_append rfl] at mem
  rcases List.mem_append.mp mem with same | ends_
  · obtain ⟨i, lt, rfl⟩ := List.getElem_of_mem same
    simp
  · rcases ends with rfl | ⟨cut, line, rest, rfl, rfl, sub⟩
    · simp at ends_
    · simp only [List.zip_cons_cons, List.zip_nil_right, List.mem_singleton] at ends_
      exact ends_ ▸ sub

/-- What the list hands on is the whole line if it was read whole, fits and holds no NUL. -/
theorem walked_eq_iff {whole read : List UInt8} (sub : read <+: whole) (k : Nat) :
    (walkedLine read).take k = whole ↔ read = whole ∧ 0 ∉ whole ∧ whole.length ≤ 159 ∧ whole.length ≤ k := by
  constructor
  · intro same
    have text : (walkedLine read).take k <+: walkedLine read := List.take_prefix ..
    have copy : walkedLine read <+: read.take 159 := List.takeWhile_prefix _
    have cut : read.take 159 <+: read := List.take_prefix ..
    rw [same] at text
    have all : read = whole := sub.eq_of_length_le ((text.trans copy).trans cut).length_le
    have walked : walkedLine read = whole := ((copy.trans cut).trans sub).eq_of_length_le text.length_le
    have fits := (text.trans copy).length_le
    have room := congrArg List.length same
    rw [List.length_take] at fits room
    refine ⟨all, fun zero => ?_, by omega, by omega⟩
    rw [← walked] at zero
    simpa using List.mem_takeWhile_imp zero
  · rintro ⟨rfl, zero, fits, room⟩
    rw [walkedLine, List.take_of_length_le fits, cstr_of_notMem zero, List.take_of_length_le room]

/-! ### Entries with an interval -/

/-- The command of an entry that `load_slot` takes, as it stores it. -/
def loads (line : List UInt8) : Option (List UInt8) :=
  (joblistSplitInterval line).bind fun (secs, cmd) => if secs = 0 then none else some (cmd.take 95)

/-- The command of an entry. -/
def commandOf (line : List UInt8) : List UInt8 := ((joblistSplitInterval line).map Prod.snd).getD []

theorem cmds_schedReload (lines : List (Nat × List UInt8)) :
    (schedReload lines).map Slot.cmd = ((lines.map Prod.snd).filterMap loads).take schedMax := by
  suffices ∀ slots : List Slot, slots.length ≤ schedMax → (lines.foldl
      (fun slots line => loadSlot (taskNowMs line.1) slots line.2) slots).map Slot.cmd =
        (slots.map Slot.cmd ++ (lines.map Prod.snd).filterMap loads).take schedMax from
    this [] (Nat.zero_le _)
  induction lines with
  | nil => exact fun slots room => by simp [room]
  | cons line lines ih =>
    intro slots room
    rw [List.foldl_cons, List.map_cons, List.filterMap_cons]
    by_cases full : schedMax ≤ slots.length
    · rw [show loadSlot (taskNowMs line.1) slots line.2 = slots by simp [loadSlot, full], ih slots room,
        List.take_append_of_le_length (by simpa), List.take_append_of_le_length (by simpa)]
    · cases cut : joblistSplitInterval line.2 with
      | none =>
        rw [show loadSlot (taskNowMs line.1) slots line.2 = slots by simp [loadSlot, cut], ih slots room]
        simp [loads, cut]
      | some e =>
        by_cases zero : e.1 = 0
        · rw [show loadSlot (taskNowMs line.1) slots line.2 = slots by simp [loadSlot, cut, zero], ih slots room]
          simp [loads, cut, zero]
        · have loaded : loadSlot (taskNowMs line.1) slots line.2 =
              slots ++ [⟨e.1, taskNowMs line.1 / 1000 + e.1, e.2.take 95⟩] := by simp [loadSlot, full, cut, zero]
          rw [loaded, ih _ (by simp; omega)]
          simp [loads, cut, zero]

theorem readInterval_append {v secs : UInt32} {line after : List UInt8} (t : List UInt8) (ne : after ≠ [])
    (read : readInterval v line = some (secs, after)) :
    readInterval v (line ++ t) = some (secs, after ++ t) ∧ after <:+ line := by
  induction line generalizing v with
  | nil =>
    cases read
    exact absurd rfl ne
  | cons c line ih =>
    rw [readInterval] at read
    rw [List.cons_append, readInterval]
    split at read
    next isd =>
      rw [if_pos isd]
      dsimp only at read ⊢
      split at read
      · cases read
      next low =>
        rw [if_neg low]
        exact ⟨(ih read).1, (ih read).2.trans (List.suffix_cons c line)⟩
    next isd =>
      cases read
      rw [if_neg isd]
      exact ⟨rfl, List.suffix_rfl⟩

/-- Behind an entry's interval a longer entry goes on. -/
theorem splitInterval_append {line cmd : List UInt8} {secs : UInt32} (t : List UInt8)
    (cut : joblistSplitInterval line = some (secs, cmd)) :
    joblistSplitInterval (line ++ t) = some (secs, cmd ++ t) ∧ cmd <:+ line := by
  unfold joblistSplitInterval at cut ⊢
  dsimp only at cut ⊢
  split at cut
  next isd =>
    split at cut
    · cases cut
    next v after read =>
      split at cut
      next isb =>
        split at cut
        · cases cut
        next ne =>
          cases cut
          have lineNe : line.dropWhile isBlank ≠ [] := fun nil => by simp [nil] at isd
          have afterNe : after ≠ [] := fun nil => by simp [nil] at isb
          have drop : (line ++ t).dropWhile isBlank = line.dropWhile isBlank ++ t := by
            rw [List.dropWhile_append, if_neg (by simpa using lineNe)]
          have ⟨more, behind⟩ := readInterval_append t afterNe read
          have rest : (after ++ t).dropWhile isBlank = after.dropWhile isBlank ++ t := by
            rw [List.dropWhile_append, if_neg (by simpa using ne)]
          rw [drop, List.head?_append_of_ne_nil _ lineNe, if_pos isd, more]
          simp only
          rw [List.head?_append_of_ne_nil _ afterNe, if_pos isb, rest, if_neg (by simp [ne])]
          exact ⟨rfl, ((List.dropWhile_suffix _).trans behind).trans (List.dropWhile_suffix _)⟩
      · cases cut
  · cases cut

theorem loaded_eq_iff {whole read cmd : List UInt8} (sub : read <+: whole) (loaded : loads (walkedLine read) = some cmd) :
    cmd = commandOf whole ↔
      read = whole ∧ 0 ∉ whole ∧ whole.length ≤ 159 ∧ (commandOf whole).length ≤ 95 := by
  obtain ⟨⟨secs, text⟩, cut, some_⟩ := Option.bind_eq_some_iff.mp loaded
  dsimp only at some_
  split at some_
  · cases some_
  cases some_
  have walked : walkedLine read <+: read.take 159 := List.takeWhile_prefix _
  obtain ⟨t, goes⟩ := (walked.trans (List.take_prefix 159 read)).trans sub
  have command : commandOf whole = text ++ t := by
    rw [commandOf, ← goes, (splitInterval_append t cut).1]
    rfl
  have line := walked_eq_iff sub (walkedLine read).length
  rw [List.take_length] at line
  rw [command]
  constructor
  · intro same
    have len := congrArg List.length same
    rw [List.length_take, List.length_append] at len
    obtain rfl : t = [] := List.length_eq_zero_iff.mp (by omega)
    rw [List.append_nil] at goes
    have ⟨all, zero, fits, _⟩ := line.mp goes
    exact ⟨all, zero, fits, by simp; omega⟩
  · rintro ⟨all, zero, fits, room⟩
    have whole_ : walkedLine read = whole := by
      rw [walkedLine, all, List.take_of_length_le fits, cstr_of_notMem zero]
    obtain rfl : t = [] := by simpa [whole_] using goes
    rw [List.append_nil] at room ⊢
    exact List.take_of_length_le room

/-! ### What is handed on -/

/-- `cmd_bg`; `started` says whether there was memory for the job and a slot for its task. -/
def cmdBg (started : Bool) (argv : List (List UInt8)) : Option (List UInt8) :=
  if argv.length < 2 then none
  else if started then some (joinInto 128 (argv.drop 1)) else none

/-- The interval of `watch -n`: a whole number that is not zero. -/
def isInterval (s : List UInt8) : Bool :=
  let (_, s) := signOf (s.dropWhile isSpace)
  let ds := digits 10 s
  ds ≠ [] && ds.length = s.length && ofDigits 10 ds ≠ 0

/-- The words that `watch` is to run. -/
def watchWords (argv : List (List UInt8)) : Option (List (List UInt8)) :=
  if argv.length < 2 then none
  else if argv.getD 1 [] = ascii "-n" then
    if argv.length < 4 then none
    else if isInterval (argv.getD 2 []) then some (argv.drop 3) else none
  else some (argv.drop 1)

/-- `cmd_watch`: the line that it runs again and again. -/
def cmdWatch (argv : List (List UInt8)) : Option (List UInt8) :=
  (watchWords argv).bind fun words =>
    let line := joinInto 160 words
    if line = [] then none else some (line.take 159)

/-- `joblist_add`, in a buffer of `CFG_BUF` bytes: what the buffer holds then. -/
def joblistAdd (buf line : List UInt8) : Option (List UInt8) :=
  let ends := if buf ≠ [] ∧ buf.getLast? ≠ some 0x0A then [0x0A] else []
  if line = [] ∨ 1024 < buf.length + ends.length + line.length + 2 then none
  else some (buf ++ ends ++ line ++ [0x0A])

/-- The line that `list_command add` writes as an entry. -/
def listAdd (intervals : Bool) (contents : List UInt8) (argv : List (List UInt8)) : Option (List UInt8) :=
  if argv.length < 3 then none
  else
    let line := joinInto 160 (argv.drop 2)
    if intervals ∧ joblistSplitInterval line = none then none
    else (joblistAdd (cfgRead contents) line).map fun _ => line

/-- `jobs_run_startup`. -/
def jobsRunStartup (again : Nat → Option (List UInt8)) (contents : List UInt8) : List (List UInt8) :=
  (walkList again contents).map (·.take 159)

/-- `sched_reload`, whose callback runs nothing: the commands that it loads, with the times at which it comes to the
entries. -/
def schedCommands (times : Nat → Nat) (contents : List UInt8) : List (List UInt8) :=
  (schedReload ((walkList (fun _ => none) contents).zipIdx.map fun e => (times e.2, e.1))).map Slot.cmd

/-- `jobs_start_services`. -/
def jobsStartServices (again : Nat → Option (List UInt8)) (contents : List UInt8) : List (List UInt8) :=
  (walkList again contents).map fun line => (ascii "bg " ++ line).take 159

/-- The alias that the first word of a segment names, followed by the rest of the segment. -/
def expansion (table : List UInt8 → Option (List UInt8)) (seg : List UInt8) : Option (List UInt8) :=
  let first := seg.takeWhile (· ≠ blank)
  if first.length < 16 then (table first).map (· ++ seg.dropWhile (· ≠ blank)) else none

/-- The segment as `run_one` goes on with it. -/
def expanded (table : List UInt8 → Option (List UInt8)) (seg : List UInt8) : List UInt8 :=
  (expansion table seg).elim seg (·.take 191)

/-- Where a line is put together that the shell is to run. -/
inductive Hop
  | expand (table : List UInt8 → Option (List UInt8)) (seg : List UInt8)
  | bg (started : Bool) (argv : List (List UInt8))
  | watch (argv : List (List UInt8))
  | add (intervals : Bool) (contents : List UInt8) (argv : List (List UInt8))
  | startup (again : Nat → Option (List UInt8)) (contents : List UInt8)
  | tasks (times : Nat → Nat) (contents : List UInt8)
  | services (again : Nat → Option (List UInt8)) (contents : List UInt8)

/-- A text, and the line that is handed on for it. -/
structure Handed where
  whole : List UInt8
  line : List UInt8

namespace Hop

/-- The lines that are handed on, each with the text that it came from. -/
def hands : Hop → List Handed
  | expand table seg => [⟨(expansion table seg).getD seg, expanded table seg⟩]
  | bg started argv => ((cmdBg started argv).map fun line => ⟨joined (argv.drop 1), line⟩).toList
  | watch argv => (cmdWatch argv).toList.map fun line => ⟨joined ((watchWords argv).getD []), line⟩
  | add intervals contents argv => (listAdd intervals contents argv).toList.map fun line => ⟨joined (argv.drop 2), line⟩
  | startup again contents => List.zipWith Handed.mk (entries contents) (jobsRunStartup again contents)
  | tasks times contents => List.zipWith Handed.mk
      (((readEntries contents).filter fun e => (loads (walkedLine e.2)).isSome).map fun e => commandOf e.1)
      (schedCommands times contents)
  | services again contents =>
    List.zipWith Handed.mk ((entries contents).map (ascii "bg " ++ ·)) (jobsStartServices again contents)

/-- A list that is read again while it runs reads the same. -/
def Calm : Hop → Prop
  | startup again contents => Steady again contents
  | services again contents => Steady again contents
  | _ => True

/-- The entry is read as the file has it, and fits. -/
def Whole (room : Nat) (e : List UInt8 × List UInt8) : Prop := e.2 = e.1 ∧ 0 ∉ e.1 ∧ e.1.length ≤ room

/-- The texts fit the buffers that they are copied into. -/
def Fits : Hop → Prop
  | expand table seg => ∀ text ∈ expansion table seg, text.length ≤ 191
  | bg started argv => started = true → (joined (argv.drop 1)).length ≤ 127
  | watch argv => ∀ words ∈ watchWords argv, (joined words).length ≤ 159
  | add intervals contents argv =>
    (listAdd intervals contents argv).isSome = true → (joined (argv.drop 2)).length ≤ 159
  | startup _ contents => ∀ e ∈ readEntries contents, Whole 159 e
  | tasks _ contents =>
    ∀ e ∈ ((readEntries contents).filter fun e => (loads (walkedLine e.2)).isSome).take schedMax,
      Whole 159 e ∧ (commandOf e.1).length ≤ 95
  | services _ contents => ∀ e ∈ readEntries contents, Whole 156 e

end Hop

/-- A list hands on what is read of its entries. -/
theorem map_readEntries (contents : List UInt8) (f : List UInt8 → List UInt8) :
    (readEntries contents).map (fun e => f e.2) = (entries (cfgRead contents)).map f := by
  obtain ⟨front, last, back, part, whole, ends⟩ := cutOf_entries contents
  have longer : (entries (cfgRead contents)).length ≤ (entries contents).length := by
    rw [part, whole, List.length_append, List.length_append]
    rcases ends with rfl | ⟨cut, line, rest, rfl, rfl, _⟩ <;> simp
  conv_rhs => rw [← List.map_snd_zip longer, List.map_map]
  rfl

theorem zipWith_entries (contents : List UInt8) (f g : List UInt8 → List UInt8) :
    List.zipWith Handed.mk ((entries contents).map f) ((entries (cfgRead contents)).map g) =
      (readEntries contents).map fun e => ⟨f e.1, g e.2⟩ := by
  rw [readEntries, List.zipWith_map, List.map_zip_eq_zipWith]
  rfl

theorem hands_startup {again : Nat → Option (List UInt8)} {contents : List UInt8} (steady : Steady again contents) :
    (Hop.startup again contents).hands = (readEntries contents).map fun e => ⟨e.1, (walkedLine e.2).take 159⟩ := by
  have same := zipWith_entries contents id fun line => (walkedLine line).take 159
  rw [Hop.hands, jobsRunStartup, walkList_steady steady, List.map_map]
  rwa [List.map_id] at same

theorem hands_services {again : Nat → Option (List UInt8)} {contents : List UInt8} (steady : Steady again contents) :
    (Hop.services again contents).hands =
      (readEntries contents).map fun e => ⟨ascii "bg " ++ e.1, (ascii "bg " ++ walkedLine e.2).take 159⟩ := by
  have same := zipWith_entries contents (ascii "bg " ++ ·) fun line => (ascii "bg " ++ walkedLine line).take 159
  rw [Hop.hands, jobsStartServices, walkList_steady steady, List.map_map]
  exact same

theorem filterMap_eq_map_filter {α : Type*} (f : α → Option (List UInt8)) (l : List α) :
    l.filterMap f = (l.filter fun a => (f a).isSome).map fun a => (f a).getD [] := by
  induction l with
  | nil => rfl
  | cons a l ih => cases fa : f a <;> simp [fa, ih]

/-- The tasks hand on the commands of the slots that `sched_reload` loads, whenever it loads them. -/
theorem hands_tasks (times : Nat → Nat) (contents : List UInt8) : (Hop.tasks times contents).hands =
    (((readEntries contents).filter fun e => (loads (walkedLine e.2)).isSome).take schedMax).map fun e =>
      ⟨commandOf e.1, (loads (walkedLine e.2)).getD []⟩ := by
  have steady : Steady (fun _ => none) contents := fun _ _ read => nomatch read
  have commands : schedCommands times contents =
      (((readEntries contents).filter fun e => (loads (walkedLine e.2)).isSome).map
        fun e => (loads (walkedLine e.2)).getD []).take schedMax := by
    rw [schedCommands, cmds_schedReload, List.map_map, walkList_steady steady]
    have lines : ((entries (cfgRead contents)).map walkedLine).zipIdx.map (Prod.snd ∘ fun e => (times e.2, e.1)) =
        (readEntries contents).map fun e => walkedLine e.2 := by
      rw [map_readEntries]
      exact List.zipIdx_map_fst _ _
    rw [lines, List.filterMap_map, filterMap_eq_map_filter]
    rfl
  rw [Hop.hands, commands]
  generalize (readEntries contents).filter (fun e => (loads (walkedLine e.2)).isSome) = loaded
  rw [List.map_take]
  generalize schedMax = room
  induction loaded generalizing room with
  | nil => simp
  | cons e loaded ih =>
    cases room with
    | zero => simp
    | succ room => simpa using ih room

theorem listAdd_eq {intervals : Bool} {contents line : List UInt8} {argv : List (List UInt8)}
    (added : listAdd intervals contents argv = some line) : line = (joined (argv.drop 2)).take 159 := by
  unfold listAdd at added
  split at added
  · cases added
  · dsimp only at added
    split at added
    · cases added
    · obtain ⟨_, _, rfl⟩ := Option.map_eq_some_iff.mp added
      exact joinInto_eq 160 _

/-- A line that is handed on is the text it came from, if and only if the text fits every buffer on its way. -/
theorem whole_iff {hop : Hop} (calm : hop.Calm) : (∀ h ∈ hop.hands, h.line = h.whole) ↔ hop.Fits := by
  cases hop with
  | expand table seg =>
    simp only [Hop.hands, Hop.Fits, List.mem_singleton, forall_eq, expanded]
    cases expansion table seg with
    | none => simp
    | some text => simp
  | bg started argv =>
    simp only [Hop.hands, Hop.Fits, cmdBg]
    split
    next short =>
      have none_ : argv.drop 1 = [] := List.drop_eq_nil_iff.mpr (by omega)
      simp [none_, joined]
    · cases started with
      | false => simp
      | true => simp [joinInto_eq]
  | watch argv =>
    simp only [Hop.hands, Hop.Fits, cmdWatch]
    generalize watchWords argv = chosen
    cases chosen with
    | none => simp
    | some words =>
      simp only [Option.bind_some, joinInto_eq, Option.getD_some, Option.mem_def, Option.some.injEq, forall_eq']
      split
      next empty =>
        have : (joined words).length = 0 := by
          have := congrArg List.length empty
          simpa using this
        simp [this]
      · simp [List.take_take]
  | add intervals contents argv =>
    simp only [Hop.hands, Hop.Fits]
    cases added : listAdd intervals contents argv with
    | none => simp
    | some line =>
      rw [listAdd_eq added]
      simp
  | startup again contents =>
    rw [hands_startup calm]
    simp only [Hop.Fits, List.forall_mem_map]
    refine forall₂_congr fun e mem => ?_
    have := walked_eq_iff (readEntries_front mem) 159
    rw [this, Hop.Whole]
    tauto
  | tasks times contents =>
    rw [hands_tasks]
    simp only [Hop.Fits, List.forall_mem_map]
    refine forall₂_congr fun e mem => ?_
    obtain ⟨entry, loaded⟩ := List.mem_filter.mp (List.mem_of_mem_take mem)
    obtain ⟨cmd, loaded⟩ := Option.isSome_iff_exists.mp loaded
    have line := loaded_eq_iff (readEntries_front entry) loaded
    rw [loaded, Option.getD_some, line, Hop.Whole]
    simp only [and_assoc]
  | services again contents =>
    rw [hands_services calm]
    simp only [Hop.Fits, List.forall_mem_map]
    refine forall₂_congr fun e mem => ?_
    have line := walked_eq_iff (readEntries_front mem) 156
    have bg : (ascii "bg ").length = 3 := by decide
    rw [List.take_append, bg, List.take_of_length_le (by omega), List.append_cancel_left_eq, line, Hop.Whole]
    constructor
    · rintro ⟨all, zero, _, room⟩
      exact ⟨all, zero, room⟩
    · rintro ⟨all, zero, room⟩
      exact ⟨all, zero, by omega, room⟩

/-! ### The words of a command -/

/-- `is_rps`. -/
def isRps (name : List UInt8) : Bool :=
  match name.drop (name.length - 4) with
  | [a, b, c, d] => a = 0x2E && (b = 0x72 || b = 0x52) && (c = 0x70 || c = 0x50) && (d = 0x73 || d = 0x53)
  | _ => false

/-- What `run_one` asks the session and the tables: whether the user is an admin, which names `cmd_resolve` finds, and
what `perms_allows` says of them. -/
structure Shell where
  admin : Bool
  resolves : List UInt8 → Bool
  allows : List UInt8 → (elevated : Bool) → Bool

namespace Shell

variable (sh : Shell) (elevated : Bool)

def isSudo (argv : List (List UInt8)) : Bool := argv.head? = some (ascii "sudo")

/-- The words without `sudo`. -/
def unlifted (argv : List (List UInt8)) : List (List UInt8) := if isSudo argv then argv.tail else argv

/-- A bare path to a script. -/
def script (argv : List (List UInt8)) : Bool :=
  match argv with
  | [] => false
  | name :: _ => !sh.resolves name && isRps name && sh.resolves (ascii "script")

/-- Whether `run_one` calls anything for the words. -/
def accepts (raw : List (List UInt8)) : Bool :=
  (!isSudo raw || sh.admin) &&
    match unlifted raw with
    | [] => false
    | name :: _ => if sh.resolves name then sh.allows name (elevated || isSudo raw) else sh.script (unlifted raw)

/-- `run_one` from the text of its command: the words that the function of a command is called with. -/
def received (text : List UInt8) : Option (List (List UInt8)) :=
  let raw := cmdlineSplitArgs 16 text
  if sh.accepts elevated raw then
    some (if sh.script (unlifted raw) then [ascii "script", (unlifted raw).headD []] else unlifted raw)
  else none

/-- Every word of a text. -/
def allWords (text : List UInt8) : List (List UInt8) := cmdlineSplitArgs text.length text

/-- What the function is to be called with. -/
def complete (text : List UInt8) : List (List UInt8) :=
  let argv := unlifted (allWords text)
  if sh.script argv then ascii "script" :: argv else argv

end Shell

theorem splitFrom_take (k j : Nat) (line : List UInt8) :
    (splitFrom k line).1 = ((splitFrom (k + j) line).1).take k := by
  induction k generalizing line with
  | zero => simp [splitFrom]
  | succ k ih =>
    rw [Nat.add_right_comm]
    simp only [splitFrom]
    cases line.dropWhile (· == blank) with
    | nil => simp
    | cons c rest => simp [ih]

theorem splitFrom_stable {n m : Nat} {line : List UInt8} (room : line.length ≤ n) (more : n ≤ m) :
    (splitFrom n line).1 = (splitFrom m line).1 := by
  induction n generalizing line m with
  | zero =>
    obtain rfl := List.length_eq_zero_iff.mp (Nat.le_zero.mp room)
    cases m <;> simp [splitFrom]
  | succ n ih =>
    obtain ⟨m, rfl⟩ := Nat.exists_eq_add_of_le' (Nat.one_le_of_lt more)
    have shorter := (List.dropWhile_sublist (· == blank) (l := line)).length_le
    simp only [splitFrom]
    cases hd : line.dropWhile (· == blank) with
    | nil => rfl
    | cons c rest =>
      have len := length_splitToken_rest c rest
      rw [hd, List.length_cons] at shorter
      have fits : (splitToken c rest).2.tail.length ≤ n := by
        rw [List.length_tail]
        omega
      simp only [ih fits (Nat.le_of_succ_le_succ more)]

/-- The splitter keeps the first words. -/
theorem splitArgs_eq (k : Nat) (text : List UInt8) : cmdlineSplitArgs k text = (Shell.allWords text).take k := by
  have far := splitFrom_take k text.length text
  rw [cmdlineSplitArgs, far, ← splitFrom_stable (Nat.le_refl _) (Nat.le_add_left ..)]
  rfl

namespace Shell

variable (sh : Shell) (elevated : Bool) (text : List UInt8)

/-- The words of the text fit `run_one`'s array, and a script that is named by its path is named alone. -/
def Room : Prop :=
  (allWords text).length ≤ 16 ∧
    (sh.script (unlifted (allWords text)) = true → (unlifted (allWords text)).length = 1)

/-- Among its first words `run_one` sees what it sees among all. -/
theorem unlifted_take (ws : List (List UInt8)) :
    unlifted (ws.take 16) = (unlifted ws).take (if isSudo ws then 15 else 16) ∧ isSudo (ws.take 16) = isSudo ws := by
  have lifts : isSudo (ws.take 16) = isSudo ws := by cases ws <;> rfl
  refine ⟨?_, lifts⟩
  unfold unlifted
  rw [lifts]
  split
  · cases ws <;> rfl
  · rfl

theorem script_take {k : Nat} (pos : 0 < k) (ws : List (List UInt8)) : sh.script (ws.take k) = sh.script ws := by
  obtain ⟨k, rfl⟩ := Nat.exists_eq_add_of_le' pos
  cases ws <;> rfl

theorem accepts_take (ws : List (List UInt8)) : sh.accepts elevated (ws.take 16) = sh.accepts elevated ws := by
  have ⟨words, lifts⟩ := unlifted_take ws
  unfold accepts
  rw [words, lifts]
  cases isSudo ws <;> cases unlifted ws <;> simp [script]

theorem exists_of_accepts {sh : Shell} {elevated : Bool} {ws : List (List UInt8)}
    (accepted : sh.accepts elevated ws = true) : ∃ name args, unlifted ws = name :: args := by
  cases argv : unlifted ws with
  | nil => simp [accepts, argv] at accepted
  | cons name args => exact ⟨name, args, rfl⟩

theorem length_unlifted (ws : List (List UInt8)) :
    (unlifted ws).length ≤ (if isSudo ws then 15 else 16) ↔ ws.length ≤ 16 := by
  unfold unlifted
  split
  · rw [List.length_tail]
    omega
  · rfl

/-- A command is called with every word, if and only if the words fit or nothing is called for them. -/
theorem received_iff :
    (∀ argv ∈ sh.received elevated text, argv = sh.complete text) ↔
      (sh.accepts elevated (allWords text) = true → sh.Room text) := by
  have ⟨words, _⟩ := unlifted_take (allWords text)
  unfold received complete Room
  rw [splitArgs_eq]
  simp only [accepts_take, words]
  generalize allWords text = ws
  by_cases accepted : sh.accepts elevated ws = true
  · obtain ⟨name, args, argv⟩ := exists_of_accepts accepted
    have kept := length_unlifted ws
    have pos : 0 < if isSudo ws then 15 else 16 := by split <;> decide
    simp only [accepted, if_true, Option.mem_def, Option.some.injEq, forall_eq', true_imp_iff, sh.script_take pos]
    generalize (if isSudo ws then 15 else 16) = k at kept pos ⊢
    by_cases path : sh.script (unlifted ws) = true
    · have first : ((unlifted ws).take k).headD [] = name := by
        obtain ⟨k, rfl⟩ := Nat.exists_eq_add_of_le' pos
        rw [argv]
        rfl
      simp only [path, if_true, first, List.cons.injEq, true_and, true_imp_iff]
      rw [argv] at kept ⊢
      have alone : [name] = name :: args ↔ args.length = 0 := by simp [eq_comm]
      rw [alone, ← kept, List.length_cons]
      omega
    · simp [path, kept]
  · simp [accepted]

/-- What `bg` runs for the text of a command: its words come through `run_one` first. -/
def background (started : Bool) : List Handed :=
  let line := (sh.received elevated text).bind fun argv =>
    if argv.head? = some (ascii "bg") then cmdBg started argv else none
  (line.map fun line => ⟨joined ((sh.complete text).drop 1), line⟩).toList

theorem joined_take_eq_iff {k : Nat} (pos : 0 < k) (words : List (List UInt8)) :
    (joined (words.take k)).take 127 = joined words ↔ words.length ≤ k ∧ (joined words).length ≤ 127 := by
  constructor
  · intro same
    have size := congrArg List.length same
    rw [List.length_take] at size
    refine ⟨?_, by omega⟩
    by_contra long
    obtain ⟨k, rfl⟩ := Nat.exists_eq_add_of_le' pos
    cases words with
    | nil => exact long (Nat.zero_le _)
    | cons word words =>
      -- A word more is a blank more at least.
      have more : (words.flatMap (blank :: ·)).length =
          ((words.take k).flatMap (blank :: ·)).length + ((words.drop k).flatMap (blank :: ·)).length := by
        rw [← List.length_append, ← List.flatMap_append, List.take_append_drop]
      cases left : words.drop k with
      | nil =>
        have few := List.drop_eq_nil_iff.mp left
        exact long (Nat.succ_le_succ few)
      | cons next rest =>
        rw [left, List.flatMap_cons, List.length_append, List.length_cons] at more
        rw [List.take_succ_cons, joined, joined, List.length_append, List.length_append] at size
        omega
  · rintro ⟨few, short⟩
    rw [List.take_of_length_le few, List.take_of_length_le short]

/-- `bg` runs all that its text says, if and only if the words fit the array and, joined, the line. -/
theorem background_iff (started : Bool) : (∀ h ∈ sh.background elevated text started, h.line = h.whole) ↔
    (started = true → sh.accepts elevated (allWords text) = true → ∀ words, sh.complete text = ascii "bg" :: words →
      words ≠ [] → sh.Room text ∧ (joined words).length ≤ 127) := by
  have ⟨taken, _⟩ := unlifted_take (allWords text)
  have kept := length_unlifted (allWords text)
  unfold background received complete Room
  rw [splitArgs_eq]
  simp only [accepts_take, taken]
  have pos : 1 < if isSudo (allWords text) then 15 else 16 := by split <;> decide
  generalize (if isSudo (allWords text) then 15 else 16) = k at kept pos ⊢
  rw [sh.script_take (by omega), ← kept]
  generalize allWords text = ws
  by_cases accepted : sh.accepts elevated ws = true
  rotate_left
  · simp [accepted]
  obtain ⟨name, args, argv⟩ := exists_of_accepts accepted
  by_cases path : sh.script (unlifted ws) = true
  · have other : ascii "script" ≠ ascii "bg" := by decide
    simp [path, accepted, other]
  obtain ⟨k, rfl⟩ := Nat.exists_eq_add_of_le' (show 1 ≤ k by omega)
  rw [argv] at path
  simp only [accepted, if_true, path, Bool.false_eq_true, if_false, argv, List.take_succ_cons, Option.bind_some,
    List.head?_cons, Option.some.injEq, List.drop_succ_cons, List.drop_zero, List.length_cons, true_imp_iff,
    false_imp_iff, and_true, List.cons.injEq, Nat.add_le_add_iff_right]
  by_cases bg : name = ascii "bg"
  rotate_left
  · simp [bg]
  cases started with
  | false => simp [bg, cmdBg]
  | true =>
    have line := joined_take_eq_iff (show 0 < k by omega) args
    cases args with
    | nil => simp [bg, cmdBg]
    | cons word words =>
      have some_ : ¬((word :: words).take k).length + 1 < 2 := by
        rw [List.length_take, List.length_cons]
        omega
      rw [if_pos bg, cmdBg, List.length_cons, if_neg some_, if_pos rfl, joinInto_eq]
      simpa [bg] using line

end Shell

/-- What the shell runs is not cut short, if and only if its texts fit their buffers and its words the array of
`run_one`, as long as a list that is read again while it runs reads the same; and so is what `bg` runs of a text, that
of a service among them. -/
theorem uncut_iff (hop : Hop) (calm : hop.Calm) (sh : Shell) (elevated : Bool) (text : List UInt8) (started : Bool) :
    ((∀ h ∈ hop.hands, h.line = h.whole) ↔ hop.Fits) ∧
      ((∀ argv ∈ sh.received elevated text, argv = sh.complete text) ↔
        (sh.accepts elevated (Shell.allWords text) = true → sh.Room text)) ∧
      ((∀ h ∈ sh.background elevated text started, h.line = h.whole) ↔
        (started = true → sh.accepts elevated (Shell.allWords text) = true →
          ∀ words, sh.complete text = ascii "bg" :: words → words ≠ [] →
            sh.Room text ∧ (joined words).length ≤ 127)) :=
  ⟨whole_iff calm, sh.received_iff elevated text, sh.background_iff elevated text started⟩

/-- A startup list whose second entry reads it again. -/
def nestedList : List UInt8 := ascii "date\nstartup run\n# every boot\nls /\n"

theorem uncut_iff_nested :
    jobsRunStartup (fun k => if k = 1 then some nestedList else none) nestedList =
        [ascii "date", ascii "startup run", ascii "ls /"] ∧
      ∀ h ∈ (Hop.startup (fun k => if k = 1 then some nestedList else none) nestedList).hands, h.line = h.whole := by
  have calm : Steady (fun k => if k = 1 then some nestedList else none) nestedList := by
    intro k now read
    rw [Option.mem_def, Option.ite_none_right_eq_some] at read
    rw [Option.some.inj read.2]
  refine ⟨by decide +kernel, (uncut_iff (.startup _ nestedList) calm ⟨false, fun _ => true, fun _ _ => true⟩ false []
    true).1.mpr ?_⟩
  have all : (readEntries nestedList).Forall fun e => e.2 = e.1 ∧ 0 ∉ e.1 ∧ e.1.length ≤ 159 := by decide +kernel
  exact fun e mem => List.forall_iff_forall_mem.mp all e mem

/-- A list that is shorter when it is read again goes on in the middle of an entry, and then behind its end. -/
example : jobsRunStartup
    (fun k => if k = 2 then some (ascii "echo first\nstartup remove 3\necho abcdef ghijkl mnopqr\n") else none)
    (ascii "echo first\nstartup remove 3\nstartup run\necho abcdef ghijkl mnopqr\n") =
      [ascii "echo first", ascii "startup remove 3", ascii "startup run", ascii "ghijkl mnopqr", []] := by
  decide +kernel

/-- Of a path of 130 bytes `bg rm` removes what its first 124 name. -/
theorem bg_rm_cut : ¬∀ (hop : Hop) (sh : Shell) (elevated : Bool) (text : List UInt8),
    (∀ h ∈ hop.hands, h.line = h.whole) ∧ ∀ argv ∈ sh.received elevated text, argv = sh.complete text := by
  intro all
  have same := (all (.bg true [ascii "bg", ascii "rm", List.replicate 130 0x61]) ⟨false, fun _ => true, fun _ _ => true⟩
    false []).1 _ List.mem_cons_self
  exact absurd same (by decide +kernel)

end RPCortex.Jobs
