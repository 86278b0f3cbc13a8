import RPCortex.Lib.Bytes
import RPCortex.Lib.Text

/-! The scheduled tasks of `jobs.cpp`: how an entry's interval is read, `joblist.cpp`, and the passes of `sched_task` over
the slots, with the true times at which they read the clock and come to an entry. -/

namespace RPCortex.Jobs

open Lib

/-- The blanks between the parts of an entry. -/
def isBlank (c : UInt8) : Bool := c = 0x20 ∨ c = 0x09

def isDigit (c : UInt8) : Bool := 0x30 ≤ c ∧ c ≤ 0x39

/-- The loop of `joblist_split_interval` over the digits, which refuses more than thirty days. -/
def readInterval (v : UInt32) : List UInt8 → Option (UInt32 × List UInt8)
  | [] => some (v, [])
  | c :: rest =>
    if isDigit c then
      let v := v * 10 + (c - 0x30).toUInt32
      if v > 86400 * 30 then none else readInterval v rest
    else some (v, c :: rest)

/-- `joblist_split_interval`: the seconds and the command. -/
def joblistSplitInterval (line : List UInt8) : Option (UInt32 × List UInt8) :=
  let line := line.dropWhile isBlank
  if (line.head?.map isDigit).getD false then
    match readInterval 0 line with
    | none => none
    | some (v, line) =>
      if (line.head?.map isBlank).getD false then
        let cmd := line.dropWhile isBlank
        if cmd = [] then none else some (v, cmd)
      else none
  else none

/-- `Slot`. -/
structure Slot where
  everyS : UInt32
  nextAtS : UInt32
  cmd : List UInt8
  deriving DecidableEq, Repr

/-- `SCHED_MAX`. -/
def schedMax : Nat := 8

/-- `task_now_ms`, at a true time in milliseconds. -/
def taskNowMs (time : Nat) : UInt32 := UInt32.ofNat time

/-- `load_slot`, with what `task_now_ms` says then. -/
def loadSlot (nowMs : UInt32) (slots : List Slot) (line : List UInt8) : List Slot :=
  if schedMax ≤ slots.length then slots
  else
    match joblistSplitInterval line with
    | none => slots
    | some (secs, cmd) =>
      if secs = 0 then slots else slots ++ [⟨secs, nowMs / 1000 + secs, cmd.take 95⟩]

/-- `sched_reload`, over the entries of the list with the times at which they are loaded. -/
def schedReload (lines : List (Nat × List UInt8)) : List Slot :=
  lines.foldl (fun slots line => loadSlot (taskNowMs line.1) slots line.2) []

/-- The comparison of `sched_task`. -/
def Slot.due (now : UInt32) (s : Slot) : Bool := ¬(now - s.nextAtS).toInt32 < 0

def Slot.fire (now : UInt32) (s : Slot) : Slot := { s with nextAtS := now + s.everyS }

theorem due_iff {now : UInt32} {s : Slot} (low : now.toNat < 2 ^ 31) (near : s.nextAtS.toNat < 2 ^ 31) :
    s.due now = true ↔ s.nextAtS.toNat ≤ now.toNat := by
  unfold Slot.due
  rw [decide_eq_true_iff, Int32.lt_iff_toInt_lt]
  have : (now - s.nextAtS).toInt32.toInt = (now - s.nextAtS).toBitVec.toInt := rfl
  rw [this, BitVec.toInt_eq_toNat_cond]
  have sub : (now - s.nextAtS).toBitVec.toNat = (2 ^ 32 - s.nextAtS.toNat + now.toNat) % 2 ^ 32 := UInt32.toNat_sub ..
  rw [sub]
  simp only [Int32.toInt_zero, not_lt]
  omega

/-! ### The times of the passes -/

/-- The clock as `sched_task` reads it, in seconds. -/
def nowS (time : Nat) : UInt32 := taskNowMs time / 1000

/-- A firing: when its pass read the clock, and when its own turn came. -/
structure Firing where
  read : Nat
  time : Nat
  deriving DecidableEq, Repr

/-- A slot with the last firing of its entry.  All times are true ones. -/
structure Entry where
  slot : Slot
  last : Option Firing
  deriving DecidableEq, Repr

/-- A turn of the loop of `sched_task` over the slots: the entry as it is found, when the pass read the clock, and when the turn comes. -/
structure Look where
  entry : Entry
  read : Nat
  time : Nat
  deriving DecidableEq, Repr

namespace Look

def fires (l : Look) : Bool := l.entry.slot.due (nowS l.read)

def after (l : Look) : Entry :=
  if l.fires then ⟨l.entry.slot.fire (nowS l.read), some ⟨l.read, l.time⟩⟩ else l.entry

end Look

/-- The turns of one pass.  `takes` is how long each takes to come, with all that the entries ahead of it run. -/
def looks (read time : Nat) (takes : Nat → Nat) : List Entry → List Look
  | [] => []
  | e :: es => ⟨e, read, time + takes 0⟩ :: looks read (time + takes 0) (fun i => takes (i + 1)) es

/-- What a pass takes: from the last turn of the pass before it to its reading of the clock, and from turn to turn. -/
structure Pass where
  gap : Nat
  takes : Nat → Nat

/-- The turns of a run of passes that begins at a time. -/
def runPasses (time : Nat) (entries : List Entry) : List Pass → List Look
  | [] => []
  | p :: ps =>
    let turns := looks (time + p.gap) (time + p.gap) p.takes entries
    turns ++ runPasses ((turns.getLast?.map Look.time).getD (time + p.gap)) (turns.map Look.after) ps

/-- `sched_task` from the entries that it loads, up to some pass. -/
def schedTask (lines : List (Nat × List UInt8)) (time : Nat) (passes : List Pass) : List Look :=
  runPasses time ((schedReload lines).map fun s => ⟨s, none⟩) passes

/-! ### What the code keeps of an entry -/

theorem readInterval_le {v secs : UInt32} {line rest : List UInt8} (low : v ≤ 86400 * 30)
    (read : readInterval v line = some (secs, rest)) : secs ≤ 86400 * 30 := by
  induction line generalizing v with
  | nil => simp only [readInterval, Option.some.injEq, Prod.mk.injEq] at read; exact read.1 ▸ low
  | cons c line ih =>
    rw [readInterval] at read
    split at read
    · dsimp only at read
      split at read
      · cases read
      next high => exact ih (UInt32.not_lt.mp high) read
    · cases read
      exact low

theorem splitInterval_le {line cmd : List UInt8} {secs : UInt32}
    (split_ : joblistSplitInterval line = some (secs, cmd)) : secs ≤ 86400 * 30 := by
  unfold joblistSplitInterval at split_
  dsimp only at split_
  split at split_
  · split at split_
    · cases split_
    next v after read =>
      have le := readInterval_le (by decide) read
      split at split_
      · split at split_
        · cases split_
        · cases split_
          exact le
      · cases split_
  · cases split_

/-- An interval of a second to thirty days. -/
structure Slot.Timed (s : Slot) : Prop where
  pos : 0 < s.everyS.toNat
  le : s.everyS.toNat ≤ 86400 * 30

theorem timed_schedReload (lines : List (Nat × List UInt8)) : ∀ s ∈ schedReload lines, s.Timed := by
  suffices ∀ slots, (∀ s ∈ slots, s.Timed) → ∀ s ∈ lines.foldl
      (fun slots line => loadSlot (taskNowMs line.1) slots line.2) slots, s.Timed from
    this [] fun s no => absurd no List.not_mem_nil
  induction lines with
  | nil => exact fun _ all => all
  | cons line lines ih =>
    intro slots all
    apply ih
    intro s mem
    unfold loadSlot at mem
    dsimp only at mem
    split at mem
    · exact all s mem
    · split at mem
      · exact all s mem
      next secs cmd cut =>
        split at mem
        · exact all s mem
        next ne =>
          rcases List.mem_append.mp mem with old | new
          · exact all s old
          · have le : secs.toNat ≤ 86400 * 30 := UInt32.le_iff_toNat_le.mp (splitInterval_le cut)
            have pos : secs.toNat ≠ 0 := fun zero => ne (UInt32.toNat_inj.mp zero)
            rw [List.mem_singleton.mp new]
            exact ⟨Nat.pos_of_ne_zero pos, le⟩

theorem toNat_nowS (time : Nat) : (nowS time).toNat = time % 2 ^ 32 / 1000 := by
  simp [nowS, taskNowMs]

/-- The entry is next due its interval after the reading of its last firing. -/
structure Entry.Sound (e : Entry) : Prop where
  timed : e.slot.Timed
  due : ∀ f, e.last = some f → e.slot.nextAtS = nowS f.read + e.slot.everyS

theorem Look.sound_after {l : Look} (sound : l.entry.Sound) : l.after.Sound := by
  unfold after
  split
  · refine ⟨⟨sound.timed.pos, sound.timed.le⟩, ?_⟩
    intro f last
    cases last
    rfl
  · exact sound

theorem looks_entry {read time : Nat} {takes : Nat → Nat} {entries : List Entry} {l : Look}
    (mem : l ∈ looks read time takes entries) : l.entry ∈ entries := by
  induction entries generalizing time takes with
  | nil => exact absurd mem List.not_mem_nil
  | cons e es ih =>
    rcases List.mem_cons.mp mem with rfl | later
    · exact List.mem_cons_self
    · exact List.mem_cons_of_mem e (ih later)

theorem runPasses_sound {time : Nat} {entries : List Entry} {passes : List Pass}
    (sound : ∀ e ∈ entries, e.Sound) : ∀ l ∈ runPasses time entries passes, l.entry.Sound := by
  induction passes generalizing time entries with
  | nil => exact fun l no => absurd no List.not_mem_nil
  | cons p passes ih =>
    intro l mem
    rcases List.mem_append.mp mem with now | later
    · exact sound l.entry (looks_entry now)
    · apply ih _ l later
      intro e turned
      obtain ⟨turn, at_, rfl⟩ := List.mem_map.mp turned
      exact Look.sound_after (sound turn.entry (looks_entry at_))

/-! ### Firing at the interval -/

namespace Look

variable {l : Look}

/-- The turn keeps the entry's interval, up to a second: it does not fire too soon after the last firing, and fires when
that is long enough ago. -/
def Kept (l : Look) : Prop :=
  ∀ f ∈ l.entry.last,
    (l.fires = true → f.time + 1000 * l.entry.slot.everyS.toNat ≤ l.time + 1000) ∧
      (f.time + 1000 * (l.entry.slot.everyS.toNat + 1) ≤ l.time → l.fires = true)

/-- The low 32 bits of the clock, in seconds, are the interval past those of the last firing's pass if the turn comes a
second and more after the interval is over, and are not if it comes more than a second before. -/
def InStep (l : Look) : Prop :=
  ∀ f ∈ l.entry.last,
    (l.time + 1000 < f.time + 1000 * l.entry.slot.everyS.toNat →
        l.read % 2 ^ 32 / 1000 < f.read % 2 ^ 32 / 1000 + l.entry.slot.everyS.toNat) ∧
      (f.time + 1000 * (l.entry.slot.everyS.toNat + 1) ≤ l.time →
        f.read % 2 ^ 32 / 1000 + l.entry.slot.everyS.toNat ≤ l.read % 2 ^ 32 / 1000)

/-- The entry's turn comes when the clock, in seconds, has moved on by its interval since the pass that fired it last. -/
theorem fires_iff (sound : l.entry.Sound) {f : Firing} (last : l.entry.last = some f) :
    l.fires = true ↔
      f.read % 2 ^ 32 / 1000 + l.entry.slot.everyS.toNat ≤ l.read % 2 ^ 32 / 1000 := by
  have le := sound.timed.le
  have next : l.entry.slot.nextAtS.toNat = f.read % 2 ^ 32 / 1000 + l.entry.slot.everyS.toNat := by
    rw [sound.due f last, UInt32.toNat_add, toNat_nowS]
    omega
  have now := toNat_nowS l.read
  rw [fires, due_iff (by omega) (by omega), next, now]

theorem kept_iff (sound : l.entry.Sound) : l.Kept ↔ l.InStep := by
  refine forall_congr' fun f => forall_congr' fun last => ?_
  have fires := fires_iff sound last
  constructor
  · intro ⟨soon, late⟩
    refine ⟨fun early => ?_, fun due => fires.mp (late due)⟩
    by_contra on
    have := soon (fires.mpr (Nat.le_of_not_lt on))
    omega
  · intro ⟨early, due⟩
    refine ⟨fun fired => ?_, fun late => fires.mpr (due late)⟩
    by_contra soon
    have := early (Nat.lt_of_not_le soon)
    have := fires.mp fired
    omega

/-- The clock has not wrapped since the last firing, and what ran ahead of the entry in the two passes took no longer
than a second more in this one, or a millisecond more in the last one. -/
def Prompt (l : Look) : Prop :=
  ∀ f ∈ l.entry.last, f.read / 2 ^ 32 = l.read / 2 ^ 32 ∧ f.read ≤ f.time ∧
    f.time + l.read ≤ l.time + f.read + 1 ∧ l.time + f.read ≤ f.time + l.read + 1000

theorem inStep_of_prompt (prompt : l.Prompt) : l.InStep := by
  intro f last
  have ⟨same, begun, _, _⟩ := prompt f last
  constructor <;> intro at_ <;> omega

end Look

theorem sound_schedTask {lines : List (Nat × List UInt8)} {time : Nat} {passes : List Pass} :
    ∀ l ∈ schedTask lines time passes, l.entry.Sound := by
  apply runPasses_sound
  intro e mem
  obtain ⟨s, loaded, rfl⟩ := List.mem_map.mp mem
  exact ⟨timed_schedReload lines s loaded, fun f no => nomatch no⟩

/-- A run of the scheduler keeps the intervals of its entries if and only if every turn of it is in step with the clock;
and it is where nothing ahead of an entry takes long and the clock does not wrap between two firings. -/
theorem schedTask_kept_iff (lines : List (Nat × List UInt8)) (time : Nat) (passes : List Pass) :
    ((∀ l ∈ schedTask lines time passes, l.Kept) ↔ ∀ l ∈ schedTask lines time passes, l.InStep) ∧
      ((∀ l ∈ schedTask lines time passes, l.Prompt) → ∀ l ∈ schedTask lines time passes, l.Kept) :=
  ⟨forall₂_congr fun l mem => Look.kept_iff (sound_schedTask l mem),
    fun prompt l mem => (Look.kept_iff (sound_schedTask l mem)).mpr (Look.inStep_of_prompt (prompt l mem))⟩

/-- An entry of a minute that is fired a little before the clock wraps is not fired again behind it. -/
theorem wrapped_not_fired : ¬∀ lines time passes, ∀ l ∈ schedTask lines time passes, l.Kept := by
  intro all
  have late := (all [(4294867296, ascii "60 date")] 4294867296 [⟨60000, fun _ => 0⟩, ⟨100000, fun _ => 0⟩]
    ⟨⟨⟨60, 4294987, ascii "date"⟩, some ⟨4294927296, 4294927296⟩⟩, 4295027296, 4295027296⟩ (by decide +kernel)
    ⟨4294927296, 4294927296⟩ rfl).2 (by decide +kernel)
  exact absurd late (by decide +kernel)

end RPCortex.Jobs
