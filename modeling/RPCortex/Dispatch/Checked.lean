import RPCortex.Lib.Run

/-! The table of commands, `command.cpp`, and `run_one` of the shell on one core while packages come and go on
the other.  A section under the lock of the table is one step; every read behind the pointer that the lookup
returned is one. -/

namespace RPCortex.Dispatch

inductive CmdLevel
  | user
  | admin
  deriving DecidableEq

/-- `Command`: `fn` and `owner` are addresses, and 0 is null. -/
structure Command where
  name : Option String
  help : Option String
  fn : Nat
  owner : Nat
  level : CmdLevel
  deriving DecidableEq

/-- `CMD_MAX`. -/
def cmdMax : Nat := 256

structure Table where
  cmds : Nat → Command
  count : Nat
  refused : Nat

namespace Table

variable (t : Table)

/-- `cmd_find`: the position of a command. -/
def cmdFind (name : String) : Option Nat := (List.range t.count).find? fun i => (t.cmds i).name = some name

/-- `cmd_register`. -/
def cmdRegister (cmd : Option Command) : Table × Bool :=
  match cmd with
  | none => ({ t with refused := t.refused + 1 }, false)
  | some cmd =>
    match cmd.name with
    | none => ({ t with refused := t.refused + 1 }, false)
    | some name =>
      if cmd.fn = 0 then ({ t with refused := t.refused + 1 }, false)
      else if (t.cmdFind name).isSome then ({ t with refused := t.refused + 1 }, false)
      else if cmdMax ≤ t.count then ({ t with refused := t.refused + 1 }, false)
      else ({ t with cmds := Lib.upd t.cmds t.count cmd, count := t.count + 1 }, true)

/-- The loop of `cmd_remove_owner` from the entry `r` on, which is kept at `w`. -/
def compact (owner : Nat) : Nat → Nat → Nat → (Nat → Command) → (Nat → Command) × Nat
  | 0, _, w, cmds => (cmds, w)
  | left + 1, r, w, cmds =>
    if (cmds r).owner ≠ owner then
      compact owner left (r + 1) (w + 1) (if w ≠ r then Lib.upd cmds w (cmds r) else cmds)
    else compact owner left (r + 1) w cmds

/-- `cmd_remove_owner`. -/
def cmdRemoveOwner (owner : Nat) : Table :=
  if owner = 0 then t
  else
    let r := compact owner t.count 0 0 t.cmds
    { t with cmds := r.1, count := r.2 }

/-- Whether the command is in the table. -/
def has (cmd : Command) : Bool := ∃ i < t.count, t.cmds i = cmd

end Table

/-- `perms_allows`. -/
def permsAllows (isAdmin : Bool) (level : CmdLevel) (elevated : Bool) : Bool :=
  match level with
  | .user => true
  | .admin => isAdmin && (isAdmin || elevated)

/-- `is_rps`. -/
def isRps (path : String) : Bool :=
  match path.toList.reverse with
  | s :: p :: r :: dot :: _ =>
    dot = '.' && (r = 'r' || r = 'R') && (p = 'p' || p = 'P') && (s = 's' || s = 'S')
  | _ => false

/-- What `run_one` does next; `i` is the position behind its pointer. -/
inductive Pc
  | idle
  /-- `cmd_resolve` finds the name, of the command or of the interpreter of scripts. -/
  | find (script : Bool)
  /-- It finds what the name is an alias of. -/
  | hop (script : Bool)
  /-- The permission test, and the names in what is said when it fails. -/
  | check (i : Nat)
  | denied (i : Nat) (again : Bool)
  | owned (i : Nat)
  /-- The name in the phase, and of the app. -/
  | phase (i : Nat)
  | app (i : Nat)
  /-- The owner that is tested, the owner and the function that are passed to `app_run_owner`. -/
  | test (i : Nat)
  | ownerArg (i : Nat)
  | fnArg (i owner : Nat)
  | enter (i owner fn : Nat)
  /-- The function that is called directly. -/
  | direct (i : Nat)
  | after (i : Nat)
  | returned (i : Nat)
  | scriptTest (i : Nat)
  | scriptCall (i : Nat)
  deriving DecidableEq

/-- The position behind the pointer. -/
def Pc.entry : Pc → Option Nat
  | .idle | .find _ | .hop _ => none
  | .check i | .denied i _ | .owned i | .phase i | .app i | .test i | .ownerArg i | .fnArg i _ | .enter i _ _
  | .direct i | .after i | .returned i | .scriptTest i | .scriptCall i => some i

/-- What was read of a command, or was called; `present` says whether the command is in the table then. -/
inductive What
  | level (l : CmdLevel)
  | owner (o : Nat)
  | name (n : Option String)
  | fn (f : Nat)
  | call (f : Nat) (present : Bool)
  deriving DecidableEq

/-- A use of the command that was found for what was typed. -/
structure Use where
  typed : String
  found : Command
  what : What
  deriving DecidableEq

/-- The state; `found` and `log` are history. -/
structure State where
  table : Table
  pc : Pc
  typed : String
  isAdmin : Bool
  elevated : Bool
  found : Command
  log : List Use

def start : State where
  table := ⟨fun _ => ⟨none, none, 0, 0, .user⟩, 0, 0⟩
  pc := .idle
  typed := ""
  isAdmin := false
  elevated := false
  found := ⟨none, none, 0, 0, .user⟩
  log := []

/-- What `app_run_owner` does: no loaded app has the owner, it refuses the call, or it makes it. -/
inductive Answer
  | unloaded
  | refused
  | called

/-- What can happen. -/
inductive Event
  /-- A command is typed. -/
  | type (name : String) (isAdmin elevated : Bool)
  /-- `run_one` goes on. -/
  | go (answer : Answer)
  | register (cmd : Option Command)
  | remove (owner : Nat)

namespace State

variable (s : State)

def use (what : What) : State := { s with log := s.log ++ [⟨s.typed, s.found, what⟩] }

def goto (pc : Pc) : State := { s with pc := pc }

/-- The pointer to the entry, and the test that comes next. -/
def pointTo (script : Bool) (i : Nat) : State :=
  { s with found := s.table.cmds i, pc := if script then .scriptTest i else .check i }

/-- What is looked up. -/
def wanted (script : Bool) : String := if script then "script" else s.typed

/-- Nothing is found: a path to a script is run by the interpreter. -/
def missing (script : Bool) : State :=
  if !script && isRps s.typed then s.goto (.find true) else s.goto .idle

def call (fn : Nat) : State := s.use (.call fn (s.table.has s.found))

/-- The next step of `run_one`. -/
def go (target : String → Option String) (answer : Answer) : State :=
  match s.pc with
  | .idle => s
  | .find script =>
    match s.table.cmdFind (s.wanted script) with
    | some i => s.pointTo script i
    | none => s.goto (.hop script)
  | .hop script =>
    match (target (s.wanted script)).bind s.table.cmdFind with
    | some i => s.pointTo script i
    | none => s.missing script
  | .check i =>
    let level := (s.table.cmds i).level
    if permsAllows s.isAdmin level s.elevated then (s.use (.level level)).goto (.owned i)
    else (s.use (.level level)).goto (.denied i false)
  | .denied i again =>
    (s.use (.name (s.table.cmds i).name)).goto (if again then .idle else .denied i true)
  | .owned i =>
    let owner := (s.table.cmds i).owner
    (s.use (.owner owner)).goto (if owner ≠ 0 then .phase i else .test i)
  | .phase i => (s.use (.name (s.table.cmds i).name)).goto (.app i)
  | .app i => (s.use (.name (s.table.cmds i).name)).goto (.test i)
  | .test i =>
    let owner := (s.table.cmds i).owner
    (s.use (.owner owner)).goto (if owner = 0 then .direct i else .ownerArg i)
  | .ownerArg i =>
    let owner := (s.table.cmds i).owner
    (s.use (.owner owner)).goto (.fnArg i owner)
  | .fnArg i owner =>
    let fn := (s.table.cmds i).fn
    (s.use (.fn fn)).goto (.enter i owner fn)
  | .enter i owner fn =>
    if owner = 0 then s.goto (.direct i)
    else
      match answer with
      | .unloaded => s.goto (.direct i)
      | .refused => s.goto (.after i)
      | .called => (s.call fn).goto (.after i)
  | .direct i => (s.call (s.table.cmds i).fn).goto (.after i)
  | .after i =>
    let owner := (s.table.cmds i).owner
    (s.use (.owner owner)).goto (if owner ≠ 0 then .returned i else .idle)
  | .returned i => (s.use (.name (s.table.cmds i).name)).goto .idle
  | .scriptTest i =>
    let fn := (s.table.cmds i).fn
    (s.use (.fn fn)).goto (if fn ≠ 0 then .scriptCall i else .idle)
  | .scriptCall i => (s.call (s.table.cmds i).fn).goto .idle

end State

/-- An event; `target` is the table of aliases. -/
def step (target : String → Option String) (s : State) : Event → Option State
  | .type name isAdmin elevated =>
    if s.pc = .idle then
      some { s with typed := name, isAdmin := isAdmin, elevated := elevated, pc := .find false }
    else none
  | .go answer => some (s.go target answer)
  | .register cmd => some { s with table := (s.table.cmdRegister cmd).1 }
  | .remove owner => some { s with table := s.table.cmdRemoveOwner owner }

/-- What was used is the command's that was found, and what was called is in the table. -/
def Use.agrees (u : Use) : Bool :=
  match u.what with
  | .level l => l = u.found.level
  | .owner o => o = u.found.owner
  | .name n => n = u.found.name
  | .fn f => f = u.found.fn
  | .call f present => f = u.found.fn && present

/-- A name that a command is found under: its own, or an alias of it. -/
def Leads (target : String → Option String) (name : String) (cmd : Command) : Prop :=
  cmd.name = some name ∨ ∃ n, target name = some n ∧ cmd.name = some n

/-- The command that was found goes by what was typed, or is the interpreter of the script that was. -/
def Use.Named (target : String → Option String) (u : Use) : Prop :=
  Leads target u.typed u.found ∨ isRps u.typed = true ∧ Leads target "script" u.found

/-- No owner is removed that has an entry at or before the position behind the pointer. -/
def Undisturbed (s : State) : Event → Prop
  | .remove owner => owner = 0 ∨ ∀ i ∈ s.pc.entry, ∀ j ≤ i, (s.table.cmds j).owner ≠ owner
  | _ => True

instance (s : State) : ∀ e, Decidable (Undisturbed s e)
  | .remove _ => inferInstanceAs (Decidable (_ ∨ _))
  | .type .. | .go _ | .register _ => isTrue trivial

end RPCortex.Dispatch

/-! The command that runs is the one that was found, while no removal moves its entry. -/

namespace RPCortex.Dispatch

open Lib

/-! ### The table -/

section Table

variable {t : Table} {i owner : Nat} {cmds : Nat → Command}

/-- What the loop has kept stays. -/
theorem compact_below {left r w k : Nat} (lt : k < w) :
    (Table.compact owner left r w cmds).1 k = cmds k ∧ w ≤ (Table.compact owner left r w cmds).2 := by
  induction left generalizing r w cmds with
  | zero => exact ⟨rfl, le_rfl⟩
  | succ left ih =>
    unfold Table.compact
    split
    · obtain ⟨same, le⟩ := @ih (if w ≠ r then upd cmds w (cmds r) else cmds) (r + 1) (w + 1) (by omega)
      refine ⟨same.trans ?_, (Nat.le_succ w).trans le⟩
      split
      · exact upd_ne (by omega)
      · rfl
    · exact ih lt

/-- The entries before the first one that is removed stay where they are. -/
theorem compact_prefix {left r : Nat} (none_ : ∀ j ≤ i, (cmds j).owner ≠ owner) (le : r ≤ i + 1)
    (ends : i < r + left) : (Table.compact owner left r r cmds).1 i = cmds i ∧
      i < (Table.compact owner left r r cmds).2 := by
  induction left generalizing r with
  | zero => exact ⟨rfl, ends⟩
  | succ left ih =>
    by_cases past : r = i + 1
    · have below : i < r := by omega
      have kept : (Table.compact owner (left + 1) r r cmds).1 i = cmds i ∧
          r ≤ (Table.compact owner (left + 1) r r cmds).2 := compact_below below
      exact ⟨kept.1, below.trans_le kept.2⟩
    · unfold Table.compact
      rw [if_pos (none_ r (by omega)), if_neg (not_not.mpr rfl)]
      exact ih (by omega) (by omega)

theorem cmdRemoveOwner_keeps (lt : i < t.count)
    (none_ : owner = 0 ∨ ∀ j ≤ i, (t.cmds j).owner ≠ owner) :
    i < (t.cmdRemoveOwner owner).count ∧ (t.cmdRemoveOwner owner).cmds i = t.cmds i := by
  unfold Table.cmdRemoveOwner
  split
  · exact ⟨lt, rfl⟩
  · rename_i some_
    obtain ⟨same, lt⟩ := compact_prefix (none_.resolve_left some_) (Nat.zero_le _)
      (show i < 0 + t.count by omega)
    exact ⟨lt, same⟩

theorem cmdRegister_keeps (lt : i < t.count) (cmd : Option Command) :
    i < (t.cmdRegister cmd).1.count ∧ (t.cmdRegister cmd).1.cmds i = t.cmds i := by
  unfold Table.cmdRegister
  split
  · exact ⟨lt, rfl⟩
  · split
    · exact ⟨lt, rfl⟩
    · split
      · exact ⟨lt, rfl⟩
      · split
        · exact ⟨lt, rfl⟩
        · split
          · exact ⟨lt, rfl⟩
          · exact ⟨Nat.lt_succ_of_lt lt, upd_ne (Nat.ne_of_lt lt)⟩

theorem cmdFind_some {name : String} (h : t.cmdFind name = some i) :
    i < t.count ∧ (t.cmds i).name = some name :=
  ⟨List.mem_range.mp (List.mem_of_find?_eq_some h), of_decide_eq_true (List.find?_some h :)⟩

end Table

/-! ### Runs -/

variable {target : String → Option String} {s s' : State} {i : Nat}

/-- What `run_one` has read and not used yet is the command's that was found. -/
def Pc.Reads (found : Command) : Pc → Prop
  | .fnArg _ owner => owner = found.owner
  | .enter _ owner fn => owner = found.owner ∧ fn = found.fn
  | _ => True

/-- The script that is looked up the interpreter for. -/
def Pc.Script (typed : String) : Pc → Prop
  | .find true | .hop true => isRps typed = true
  | _ => True

structure State.Valid (target : String → Option String) (s : State) : Prop where
  log : ∀ u ∈ s.log, u.agrees = true ∧ u.Named target
  entry : ∀ i ∈ s.pc.entry, i < s.table.count ∧ s.table.cmds i = s.found
  named : ∀ i ∈ s.pc.entry, ∀ what, Use.Named target ⟨s.typed, s.found, what⟩
  reads : s.pc.Reads s.found
  script : s.pc.Script s.typed

theorem valid_start : start.Valid target :=
  ⟨fun _ no => absurd no List.not_mem_nil, fun _ no => (by cases no), fun _ no => (by cases no), trivial, trivial⟩

/-- `run_one` goes on with its command. -/
theorem State.Valid.goto (v : s.Valid target) (here : s.pc.entry = some i) {pc : Pc}
    (entry : ∀ j ∈ pc.entry, j = i) (reads : pc.Reads s.found) (script : pc.Script s.typed) :
    (s.goto pc).Valid target :=
  ⟨v.log, fun j mem => by rw [entry j mem]; exact v.entry i here,
    fun _ _ => v.named i here, reads, script⟩

/-- It uses what its command has. -/
theorem State.Valid.use (v : s.Valid target) (here : s.pc.entry = some i) (what : What)
    (agrees : (⟨s.typed, s.found, what⟩ : Use).agrees = true) : (s.use what).Valid target := by
  refine ⟨fun u mem => ?_, v.entry, v.named, v.reads, v.script⟩
  rcases List.mem_append.mp mem with mem | mem
  · exact v.log u mem
  · obtain rfl := List.mem_singleton.mp mem
    exact ⟨agrees, v.named i here what⟩

/-- It uses what its command has and goes on with it. -/
theorem State.Valid.useThen (v : s.Valid target) (here : s.pc.entry = some i) {what : What}
    (agrees : (⟨s.typed, s.found, what⟩ : Use).agrees = true) {pc : Pc} (stays : pc.entry = some i)
    (reads : pc.Reads s.found) (script : pc.Script s.typed) : ((s.use what).goto pc).Valid target := by
  refine (v.use here what agrees).goto here (fun j mem => ?_) reads script
  rw [stays] at mem
  exact (Option.some.inj mem).symm

theorem State.Valid.pointTo (v : s.Valid target) {script : Bool} (lt : i < s.table.count)
    (named : ∀ what, Use.Named target ⟨s.typed, s.table.cmds i, what⟩) :
    (s.pointTo script i).Valid target := by
  refine ⟨v.log, fun j mem => ?_, fun j mem => ?_, ?_, ?_⟩
  · have same : j = i := by cases script <;> exact (Option.some.inj mem).symm
    rw [same]
    exact ⟨lt, rfl⟩
  · exact named
  · cases script <;> trivial
  · cases script <;> trivial

/-- The command is in the table while its entry is. -/
theorem State.Valid.has_found (v : s.Valid target) (here : s.pc.entry = some i) : s.table.has s.found = true :=
  decide_eq_true ⟨i, (v.entry i here).1, (v.entry i here).2⟩

theorem State.Valid.find (v : s.Valid target) {script : Bool} {n : String} (found : s.table.cmdFind n = some i)
    (named : script = true → isRps s.typed = true)
    (leads : n = s.wanted script ∨ target (s.wanted script) = some n) : (s.pointTo script i).Valid target := by
  obtain ⟨lt, name⟩ := cmdFind_some found
  refine v.pointTo lt fun what => ?_
  have leads : Leads target (s.wanted script) (s.table.cmds i) := by
    rcases leads with rfl | hop
    · exact Or.inl name
    · exact Or.inr ⟨n, hop, name⟩
  cases script with
  | false => exact Or.inl leads
  | true => exact Or.inr ⟨named rfl, leads⟩

theorem State.Valid.go (v : s.Valid target) (answer : Answer) : (s.go target answer).Valid target := by
  have entry := v.entry
  have script := v.script
  have reads := v.reads
  unfold State.go
  cases pc : s.pc with
  | idle => exact v
  | find interpreter =>
    rw [pc] at script
    have named : interpreter = true → isRps s.typed = true := by
      rintro rfl
      exact script
    simp only
    split
    · rename_i i found
      exact v.find found named (Or.inl rfl)
    · refine ⟨v.log, fun _ no => (by cases no), fun _ no => (by cases no), trivial, ?_⟩
      cases interpreter with
      | false => trivial
      | true => exact script
  | hop interpreter =>
    rw [pc] at script
    have named : interpreter = true → isRps s.typed = true := by
      rintro rfl
      exact script
    simp only
    split
    · rename_i i found
      obtain ⟨n, hop, found⟩ := Option.bind_eq_some_iff.mp found
      exact v.find found named (Or.inr hop)
    · unfold State.missing
      split
      · rename_i rps
        rw [Bool.and_eq_true] at rps
        exact ⟨v.log, fun _ no => (by cases no), fun _ no => (by cases no), trivial, rps.2⟩
      · exact ⟨v.log, fun _ no => (by cases no), fun _ no => (by cases no), trivial, trivial⟩
  | check i =>
    have here : s.pc.entry = some i := by rw [pc]; rfl
    have same := (entry i here).2
    have agrees : (⟨s.typed, s.found, .level (s.table.cmds i).level⟩ : Use).agrees = true :=
      decide_eq_true (by rw [same])
    simp only
    split
    · exact v.useThen here agrees rfl trivial trivial
    · exact v.useThen here agrees rfl trivial trivial
  | denied i again =>
    have here : s.pc.entry = some i := by rw [pc]; rfl
    have same := (entry i here).2
    have used := v.use here (.name (s.table.cmds i).name) (decide_eq_true (by rw [same]))
    cases again with
    | false => exact used.goto here (fun j mem => (Option.some.inj mem).symm) trivial trivial
    | true => exact used.goto here (fun j mem => (by cases mem)) trivial trivial
  | owned i =>
    have here : s.pc.entry = some i := by rw [pc]; rfl
    have same := (entry i here).2
    have agrees : (⟨s.typed, s.found, .owner (s.table.cmds i).owner⟩ : Use).agrees = true :=
      decide_eq_true (by rw [same])
    simp only
    split
    · exact v.useThen here agrees rfl trivial trivial
    · exact v.useThen here agrees rfl trivial trivial
  | phase i =>
    have here : s.pc.entry = some i := by rw [pc]; rfl
    have same := (entry i here).2
    have agrees : (⟨s.typed, s.found, .name (s.table.cmds i).name⟩ : Use).agrees = true :=
      decide_eq_true (by rw [same])
    exact v.useThen here agrees rfl trivial trivial
  | app i =>
    have here : s.pc.entry = some i := by rw [pc]; rfl
    have same := (entry i here).2
    have agrees : (⟨s.typed, s.found, .name (s.table.cmds i).name⟩ : Use).agrees = true :=
      decide_eq_true (by rw [same])
    exact v.useThen here agrees rfl trivial trivial
  | test i =>
    have here : s.pc.entry = some i := by rw [pc]; rfl
    have same := (entry i here).2
    have agrees : (⟨s.typed, s.found, .owner (s.table.cmds i).owner⟩ : Use).agrees = true :=
      decide_eq_true (by rw [same])
    simp only
    split
    · exact v.useThen here agrees rfl trivial trivial
    · exact v.useThen here agrees rfl trivial trivial
  | ownerArg i =>
    have here : s.pc.entry = some i := by rw [pc]; rfl
    have same := (entry i here).2
    have agrees : (⟨s.typed, s.found, .owner (s.table.cmds i).owner⟩ : Use).agrees = true :=
      decide_eq_true (by rw [same])
    exact v.useThen here agrees rfl (congrArg Command.owner same) trivial
  | fnArg i owner =>
    have here : s.pc.entry = some i := by rw [pc]; rfl
    have same := (entry i here).2
    have agrees : (⟨s.typed, s.found, .fn (s.table.cmds i).fn⟩ : Use).agrees = true :=
      decide_eq_true (by rw [same])
    rw [pc] at reads
    exact v.useThen here agrees rfl ⟨reads, congrArg Command.fn same⟩ trivial
  | enter i owner fn =>
    have here : s.pc.entry = some i := by rw [pc]; rfl
    rw [pc] at reads
    have used := v.use here (.call fn (s.table.has s.found))
      (Bool.and_eq_true_iff.mpr ⟨decide_eq_true reads.2, v.has_found here⟩)
    simp only
    split
    · exact v.goto here (fun j mem => (Option.some.inj mem).symm) trivial trivial
    · cases answer with
      | unloaded => exact v.goto here (fun j mem => (Option.some.inj mem).symm) trivial trivial
      | refused => exact v.goto here (fun j mem => (Option.some.inj mem).symm) trivial trivial
      | called => exact used.goto here (fun j mem => (Option.some.inj mem).symm) trivial trivial
  | direct i =>
    have here : s.pc.entry = some i := by rw [pc]; rfl
    have same := (entry i here).2
    have used := v.use here (.call (s.table.cmds i).fn (s.table.has s.found))
      (Bool.and_eq_true_iff.mpr ⟨decide_eq_true (by rw [same]), v.has_found here⟩)
    exact used.goto here (fun j mem => (Option.some.inj mem).symm) trivial trivial
  | after i =>
    have here : s.pc.entry = some i := by rw [pc]; rfl
    have same := (entry i here).2
    have used := v.use here (.owner (s.table.cmds i).owner) (decide_eq_true (by rw [same]))
    simp only
    split
    · exact used.goto here (fun j mem => (Option.some.inj mem).symm) trivial trivial
    · exact used.goto here (fun j mem => (by cases mem)) trivial trivial
  | returned i =>
    have here : s.pc.entry = some i := by rw [pc]; rfl
    have same := (entry i here).2
    have used := v.use here (.name (s.table.cmds i).name) (decide_eq_true (by rw [same]))
    exact used.goto here (fun j mem => (by cases mem)) trivial trivial
  | scriptTest i =>
    have here : s.pc.entry = some i := by rw [pc]; rfl
    have same := (entry i here).2
    have used := v.use here (.fn (s.table.cmds i).fn) (decide_eq_true (by rw [same]))
    simp only
    split
    · exact used.goto here (fun j mem => (Option.some.inj mem).symm) trivial trivial
    · exact used.goto here (fun j mem => (by cases mem)) trivial trivial
  | scriptCall i =>
    have here : s.pc.entry = some i := by rw [pc]; rfl
    have same := (entry i here).2
    have used := v.use here (.call (s.table.cmds i).fn (s.table.has s.found))
      (Bool.and_eq_true_iff.mpr ⟨decide_eq_true (by rw [same]), v.has_found here⟩)
    exact used.goto here (fun j mem => (by cases mem)) trivial trivial

/-- What the other core does to the table, while the entry stays. -/
theorem State.Valid.table (v : s.Valid target) {t : Table}
    (keeps : ∀ i ∈ s.pc.entry, i < t.count ∧ t.cmds i = s.table.cmds i) : { s with table := t }.Valid target :=
  ⟨v.log, fun i here => ⟨(keeps i here).1, (keeps i here).2.trans (v.entry i here).2⟩, v.named, v.reads,
    v.script⟩

theorem State.Valid.step {e : Event} (v : s.Valid target) (undisturbed : Undisturbed s e)
    (taken : step target s e = some s') : s'.Valid target := by
  cases e with
  | type name isAdmin elevated =>
    simp only [Dispatch.step] at taken
    split at taken
    · obtain rfl := Option.some.inj taken
      exact ⟨v.log, fun _ no => (by cases no), fun _ no => (by cases no), trivial, trivial⟩
    · cases taken
  | go answer =>
    obtain rfl := Option.some.inj taken
    exact v.go answer
  | register cmd =>
    obtain rfl := Option.some.inj taken
    exact v.table fun i here => cmdRegister_keeps (v.entry i here).1 cmd
  | remove owner =>
    obtain rfl := Option.some.inj taken
    refine v.table fun i here => cmdRemoveOwner_keeps (v.entry i here).1 ?_
    exact undisturbed.imp_right fun none_ => none_ i here

/-- In every run in which no removal moves the entry of the command that runs, its level, its owner and the
function that is called are those of one command, which was found under what was typed and which is in the
table when it is called. -/
theorem command_checked (target : String → Option String) (s : State)
    (run : Run (step target) Undisturbed start s) : ∀ u ∈ s.log, u.agrees = true ∧ u.Named target :=
  (run.invariant (P := State.Valid target) valid_start fun _ _ _ v undisturbed taken =>
    v.step undisturbed taken).log

/-- A command of a package that is called while a package behind it is removed. -/
def apart : List Event :=
  [.register (some ⟨some "b", none, 20, 2, .user⟩), .register (some ⟨some "c", none, 30, 3, .admin⟩),
    .type "b" false false, .go .called, .go .called, .remove 3, .go .called, .go .called, .go .called,
    .go .called, .go .called, .go .called, .go .called, .go .called, .go .called]

theorem command_checked_apart :
    ∃ s : State, s.log.length = 10 ∧ ∀ u ∈ s.log, u.agrees = true ∧ u.Named fun _ => none :=
  ⟨(exec (step fun _ => none) start apart).get (by decide +kernel), by decide +kernel,
    command_checked (fun _ => none) _ (Run.of_exec_get _ (by decide +kernel))⟩

/-- The package before it is removed between the permission test and the call, and a command for
administrators is called. -/
def shifted : List Event :=
  [.register (some ⟨some "a", none, 10, 1, .user⟩), .register (some ⟨some "b", none, 20, 2, .user⟩),
    .register (some ⟨some "c", none, 30, 3, .admin⟩), .type "b" false false, .go .called, .go .called,
    .remove 1, .go .called, .go .called, .go .called, .go .called, .go .called, .go .called, .go .called]

theorem not_all_commands_checked : ¬∀ (events : List Event) (s : State),
    exec (step fun _ => none) start events = some s → ∀ u ∈ s.log, u.agrees = true := by
  intro all
  have ends : (exec (step fun _ => none) start shifted).map (fun s => s.log.all Use.agrees) = some false := by
    decide +kernel
  obtain ⟨s, reached, wrong⟩ := Option.map_eq_some_iff.mp ends
  rw [List.all_eq_true.mpr (all shifted s reached)] at wrong
  cases wrong

end RPCortex.Dispatch
