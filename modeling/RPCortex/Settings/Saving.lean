import RPCortex.Settings.Accounts
import RPCortex.Settings.Isolation

/-! Saves that go on while tasks change the tables.  A save measures a table, allocates a buffer,
serialises the table into it and writes it to a file; each of these is one step, between which other
tasks take theirs, and memory and storage may fail. -/

namespace RPCortex.Settings.Saving

open Lib Registry

/-- The tables that are saved. -/
inductive Which
  | registry | users | scope
  deriving DecidableEq

/-- The call that `save_one` makes next, with what the calls before it gave; `buf` is the memory from the
buffer on. -/
inductive Point
  | measure
  | malloc (need : Nat)
  | serialise (need : Nat) (buf : Nat → UInt8)
  | write (need : Nat) (buf : Nat → UInt8) (n : Nat)

/-- A save that goes on: its table, the files that it has yet to write, and where `save_one` is with the
first of them.  Behind the last one the table is marked clean. -/
structure Save where
  table : Which
  files : List Path
  point : Point

/-- The tables, the files, and the save that each task is in. -/
structure State where
  registry : Registry
  users : Users
  storage : Storage
  tasks : Nat → Option Save

/-- The file of a shadow copy. -/
def backups : Which → List Path
  | .registry => [regBackup]
  | .users => [usersBackup]
  | .scope => []

namespace State

/-- The lines of a table. -/
def lines (w : State) : Which → List (List UInt8)
  | .registry => w.registry.dev.entries.map entryLine
  | .users => w.users.users.map Users.userLine
  | .scope => w.registry.usr.entries.map entryLine

/-- The serialisation of a table. -/
def text (w : State) (t : Which) : List UInt8 := unlines newline (w.lines t)

/-- `reg_dirty`, `users_dirty` and `reg_scope_dirty`. -/
def dirty (w : State) : Which → Bool
  | .registry => w.registry.dirty
  | .users => w.users.dirty
  | .scope => w.registry.usrDirty

/-- The file that a table is in; that of the user's table is for whoever is signed in. -/
def file (w : State) : Which → Option Path
  | .registry => some regFile
  | .users => some usersFile
  | .scope => scopePath w.registry.scope

/-- `reg_serialize`, `users_serialize` and `reg_scope_serialize`. -/
def serialise (w : State) : Which → (cap : Nat) → List UInt8 × Nat
  | .registry, cap => w.registry.regSerialize cap
  | .users, cap => w.users.usersSerialize cap
  | .scope, cap => w.registry.regScopeSerialize cap

/-- `reg_mark_clean`, `users_mark_clean` and `reg_scope_mark_clean`. -/
def markClean (w : State) : Which → State
  | .registry => { w with registry := { w.registry with dirty := false } }
  | .users => { w with users := { w.users with dirty := false } }
  | .scope => { w with registry := { w.registry with usrDirty := false } }

end State

/-- The memory from a buffer of `cap` bytes on, after a serialiser gave `r`: with a NUL behind the text, or in
the last byte. -/
def filled (buf : Nat → UInt8) (cap : Nat) (r : List UInt8 × Nat) : Nat → UInt8 :=
  upd (store buf 0 r.1) (if r.2 < cap then r.2 else cap - 1) 0

/-- `reg_clear`. -/
def regClear (r : Registry) : Registry := { r with dev := .empty, dirty := true }

/-- `users_clear`. -/
def usersClear : Users := ⟨[], Nat.zero_le _, true⟩

/-- A call that changes a table. -/
inductive Change
  | regSet (key val : CString)
  | regClear
  | usersAdd (name : CString) (password : Option CString) (admin nopass : Bool) (salt : Users.Salt)
  | usersSetPassword (name : CString) (password : Option CString) (salt : Users.Salt)
  | usersSetAdmin (name : CString) (admin : Bool)
  | usersSetNopass (name : CString)
  | usersRemove (name : CString)
  | usersClear

/-- What happens: a task changes a table, or calls a save, or takes the next step of the save that it is in.
There `given` is the memory from the buffer of a `malloc` on, and `failed` is what a failed write leaves in
the file. -/
inductive Action
  | change (c : Change)
  | call (task : Nat) (t : Which)
  | go (task : Nat) (given : Option (Nat → UInt8)) (failed : Option (List UInt8))

section Steps

variable (sha256 : List UInt8 → Vector UInt8 32)

namespace State

/-- The state after a call that changes a table. -/
def change (w : State) : Change → State
  | .regSet key val => { w with registry := (w.registry.regSet key val).2 }
  | .regClear => { w with registry := Saving.regClear w.registry }
  | .usersAdd name password admin nopass salt =>
    { w with users := (w.users.usersAdd sha256 name password admin nopass salt).2 }
  | .usersSetPassword name password salt =>
    { w with users := (w.users.usersSetPassword sha256 name password salt).2 }
  | .usersSetAdmin name admin => { w with users := (w.users.usersSetAdmin name admin).2 }
  | .usersSetNopass name => { w with users := (w.users.usersSetNopass name).2 }
  | .usersRemove name => { w with users := (w.users.usersRemove name).2 }
  | .usersClear => { w with users := Saving.usersClear }

/-- `persist_save_registry`, `persist_save_users` and `persist_save_scope` up to the first step.  Without a
user to save for, the last one is over at once. -/
def call (w : State) (i : Nat) (t : Which) : State :=
  match w.file t with
  | none => w
  | some file => { w with tasks := upd w.tasks i (some ⟨t, file :: backups t, .measure⟩) }

/-- The next step of a save. -/
def go (w : State) (i : Nat) (given : Option (Nat → UInt8)) (failed : Option (List UInt8)) (s : Save) : State :=
  match s.files with
  | [] => { w.markClean s.table with tasks := upd w.tasks i none }
  | file :: files =>
    match s.point with
    | .measure =>
      { w with tasks := upd w.tasks i (some { s with point := .malloc (w.serialise s.table 0).2 }) }
    | .malloc need =>
      match given with
      | none => { w with tasks := upd w.tasks i (some { s with files, point := .measure }) }
      | some buf => { w with tasks := upd w.tasks i (some { s with point := .serialise need buf }) }
    | .serialise need buf =>
      let r := w.serialise s.table (need + 1)
      { w with tasks := upd w.tasks i (some { s with point := .write need (filled buf (need + 1) r) r.2 }) }
    | .write _ buf n =>
      { w with
        storage := upd w.storage file (failed.getD (window buf 0 n))
        tasks := upd w.tasks i (some { s with files, point := .measure }) }

end State

/-- One step. -/
def step (w : State) : Action → Option State
  | .change c => some (w.change sha256 c)
  | .call i t => if (w.tasks i).isNone then some (w.call i t) else none
  | .go i given failed => (w.tasks i).map (w.go i given failed)

/-- A flag is clear only while the file holds the table. -/
def State.Kept (w : State) : Prop :=
  ∀ t file, w.file t = some file → w.dirty t = false → w.storage file = w.text t

/-- No save is about to hand the storage more bytes than its buffer has. -/
def State.Within (w : State) : Prop :=
  ∀ i s need buf n, w.tasks i = some s → s.point = .write need buf n → n ≤ need + 1

/-- A save has taken the text for the table's own file, and has not marked the table clean yet. -/
def Save.Taken (w : State) (s : Save) : Prop :=
  w.file s.table ≠ s.files.head? ∨ ∃ need buf n, s.point = .write need buf n

/-- What must not go wrong while the table's own file is saved: memory or storage fail, unless the table is
clean and the file stays as it is; or the table grows behind its measure. -/
def Save.Served (w : State) (s : Save) (given : Option (Nat → UInt8)) (failed : Option (List UInt8)) : Prop :=
  match s.point with
  | .measure => True
  | .malloc _ => given = none → w.dirty s.table = false
  | .serialise need _ => (w.text s.table).length ≤ need
  | .write _ _ _ => failed ≠ none → w.dirty s.table = false ∧ failed = s.files.head?.map w.storage

/-- A step that forgets nothing: no table changes between the serialising for its own file and the mark. -/
def Careful (w : State) : Action → Prop
  | .change c => ∀ i s, w.tasks i = some s → s.Taken w →
      (w.change sha256 c).text s.table = w.text s.table
  | .call _ _ => True
  | .go i given failed => ∀ s, w.tasks i = some s → w.file s.table = s.files.head? → s.Served w given failed

end Steps

variable {sha256 : List UInt8 → Vector UInt8 32} {w w' : State} {t : Which} {s : Save}

/-! ### Tables and files -/

theorem serialise_eq (w : State) (t : Which) (cap : Nat) :
    w.serialise t cap = serializeFrom cap [] 0 (w.lines t) := by
  cases t <;> rfl

theorem serialise_need (w : State) (t : Which) (cap : Nat) : (w.serialise t cap).2 = (w.text t).length := by
  rw [serialise_eq, serializeFrom_need, Nat.zero_add]
  rfl

/-- With room for it, the text is in the buffer. -/
theorem filled_text {need : Nat} (room : (w.text t).length ≤ need) (buf : Nat → UInt8) :
    window (filled buf (need + 1) (w.serialise t (need + 1))) 0 (w.text t).length = w.text t := by
  have whole : w.serialise t (need + 1) = (w.text t, (w.text t).length) := by
    have text := serializeFrom_eq (need + 1) [] (w.lines t)
      (by rw [List.length_nil, Nat.zero_add]; exact Nat.lt_succ_of_le room)
    rw [List.nil_append, List.length_nil, Nat.zero_add] at text
    exact (serialise_eq w t _).trans text
  rw [whole, filled, if_pos (Nat.lt_succ_of_le room)]
  refine window_eq fun i inside => ?_
  rw [upd_ne (by omega)]
  exact store_inside inside

/-- The file of a table is no other table's, and no shadow copy. -/
theorem file_apart {u : Which} {file : Path} (there : w.file t = some file) :
    file ∉ backups u ∧ (w.file u = some file → u = t) := by
  have own : regFile ≠ usersFile ∧ regFile ∉ [regBackup, usersBackup] ∧
      usersFile ∉ [regBackup, usersBackup] := by
    decide
  cases t with
  | registry =>
    obtain rfl := Option.some.inj there
    cases u with
    | registry => exact ⟨by decide, fun _ => rfl⟩
    | users => exact ⟨by decide, fun same => absurd (Option.some.inj same).symm own.1⟩
    | scope => exact ⟨by decide, fun same => absurd rfl (scopePath_ne same).1⟩
  | users =>
    obtain rfl := Option.some.inj there
    cases u with
    | registry => exact ⟨by decide, fun same => absurd (Option.some.inj same) own.1⟩
    | users => exact ⟨by decide, fun _ => rfl⟩
    | scope => exact ⟨by decide, fun same => absurd rfl (scopePath_ne same).2.2.1⟩
  | scope =>
    obtain ⟨reg, regShadow, usr, usrShadow⟩ := scopePath_ne there
    cases u with
    | registry =>
      exact ⟨fun same => regShadow (List.mem_singleton.mp same).symm,
        fun same => absurd (Option.some.inj same) reg⟩
    | users =>
      exact ⟨fun same => usrShadow (List.mem_singleton.mp same).symm,
        fun same => absurd (Option.some.inj same) usr⟩
    | scope => exact ⟨List.not_mem_nil, fun _ => rfl⟩

/-! ### What a step leaves -/

theorem usersAdd_dirties {users : Users} {name : CString} {password : Option CString} {admin nopass : Bool}
    {salt : Users.Salt} : (users.usersAdd sha256 name password admin nopass salt).2 = users ∨
      (users.usersAdd sha256 name password admin nopass salt).2.dirty = true := by
  unfold Users.usersAdd
  split
  · split
    · split
      · exact .inr rfl
      · exact .inl rfl
      · split
        · exact .inl rfl
        · exact .inr rfl
    · exact .inl rfl
  · exact .inl rfl

/-- A setter either does nothing or raises its table's flag. -/
theorem users_changed (sha256 : List UInt8 → Vector UInt8 32) (c : Change) : (w.change sha256 c).users = w.users ∨
    (w.change sha256 c).users.dirty = true := by
  cases c with
  | regSet key val => exact .inl rfl
  | regClear => exact .inl rfl
  | usersAdd name password admin nopass salt => exact usersAdd_dirties
  | usersSetPassword name password salt =>
    simp only [State.change, Users.usersSetPassword]
    split
    · split
      · exact .inl rfl
      · exact .inr rfl
    · exact .inl rfl
  | usersSetAdmin name admin =>
    simp only [State.change, Users.usersSetAdmin]
    split
    · exact .inl rfl
    · split
      · exact .inl rfl
      · exact .inr rfl
  | usersSetNopass name =>
    simp only [State.change, Users.usersSetNopass]
    split
    · exact .inl rfl
    · split
      · exact .inl rfl
      · exact .inr rfl
  | usersRemove name =>
    simp only [State.change, Users.usersRemove]
    split
    · exact .inl rfl
    · split
      · exact .inl rfl
      · exact .inr rfl
  | usersClear => exact .inr rfl

theorem registry_changed (sha256 : List UInt8 → Vector UInt8 32) (w : State) (c : Change) :
    (w.change sha256 c).registry.scope = w.registry.scope ∧
    ((w.change sha256 c).registry.dev = w.registry.dev ∧ (w.change sha256 c).registry.dirty = w.registry.dirty ∨
      (w.change sha256 c).registry.dirty = true) ∧
    ((w.change sha256 c).registry.usr = w.registry.usr ∧
      (w.change sha256 c).registry.usrDirty = w.registry.usrDirty ∨
      (w.change sha256 c).registry.usrDirty = true) := by
  cases c with
  | regSet key val =>
    simp only [State.change, regSet]
    split
    · exact ⟨rfl, .inl ⟨rfl, rfl⟩, .inl ⟨rfl, rfl⟩⟩
    · split
      · split
        · exact ⟨rfl, .inl ⟨rfl, rfl⟩, .inl ⟨rfl, rfl⟩⟩
        · split
          · exact ⟨rfl, .inl ⟨rfl, rfl⟩, .inl ⟨rfl, rfl⟩⟩
          · exact ⟨rfl, .inl ⟨rfl, rfl⟩, .inr rfl⟩
      · unfold devicePut
        split
        · exact ⟨rfl, .inl ⟨rfl, rfl⟩, .inl ⟨rfl, rfl⟩⟩
        · exact ⟨rfl, .inr rfl, .inl ⟨rfl, rfl⟩⟩
  | regClear => exact ⟨rfl, .inr rfl, .inl ⟨rfl, rfl⟩⟩
  | _ => exact ⟨rfl, .inl ⟨rfl, rfl⟩, .inl ⟨rfl, rfl⟩⟩

theorem change_dirties (sha256 : List UInt8 → Vector UInt8 32) (w : State) (c : Change) (t : Which) :
    (w.change sha256 c).text t = w.text t ∧ (w.change sha256 c).dirty t = w.dirty t ∨
      (w.change sha256 c).dirty t = true := by
  obtain ⟨-, dev, usr⟩ := registry_changed sha256 w c
  cases t with
  | registry =>
    refine dev.imp_left fun same => ⟨?_, same.2⟩
    rw [State.text, State.lines, same.1]
    rfl
  | users =>
    refine (users_changed sha256 c).imp_left fun same => ?_
    rw [State.text, State.lines, State.dirty, same]
    exact ⟨rfl, rfl⟩
  | scope =>
    refine usr.imp_left fun same => ⟨?_, same.2⟩
    rw [State.text, State.lines, same.1]
    rfl

theorem change_file (c : Change) (t : Which) : (w.change sha256 c).file t = w.file t := by
  cases t with
  | registry => rfl
  | users => rfl
  | scope => exact congrArg scopePath (registry_changed _ _ c).1

theorem change_rest (sha256 : List UInt8 → Vector UInt8 32) (w : State) (c : Change) :
    (w.change sha256 c).storage = w.storage ∧ (w.change sha256 c).tasks = w.tasks := by
  cases c <;> exact ⟨rfl, rfl⟩

theorem markClean_text (u : Which) : (w.markClean u).text t = w.text t := by
  cases u <;> cases t <;> rfl

theorem markClean_file (u : Which) : (w.markClean u).file t = w.file t := by
  cases u <;> cases t <;> rfl

theorem markClean_dirty (u : Which) : (w.markClean u).dirty t = if t = u then false else w.dirty t := by
  cases u <;> cases t <;> rfl

theorem markClean_storage (u : Which) : (w.markClean u).storage = w.storage := by
  cases u <;> rfl

/-! ### Saves -/

/-- What a save knows of its table at a point, before it has written the table's own file. -/
def Point.First (text : List UInt8) : Point → Prop
  | .write need buf n => window buf 0 n = text ∧ n ≤ need + 1
  | _ => True

/-- What it knows behind that: the table stays, and so does its measure. -/
def Point.Later (text : List UInt8) : Point → Prop
  | .measure => True
  | .malloc need => text.length ≤ need
  | .serialise need _ => text.length ≤ need
  | .write need _ n => n ≤ need + 1

/-- A save in the middle: it has its own file still to write, or that file holds the table. -/
inductive Save.Ready (w : State) (s : Save) : Prop
  | first {file : Path} (there : w.file s.table = some file) (files : s.files = file :: backups s.table)
      (point : s.point.First (w.text s.table))
  | later {file : Path} (there : w.file s.table = some file) (files : s.files <:+ backups s.table)
      (saved : w.storage file = w.text s.table) (point : s.point.Later (w.text s.table))

/-- What holds in every state of a careful run. -/
structure State.Inv (w : State) : Prop where
  kept : w.Kept
  ready : ∀ i s, w.tasks i = some s → s.Ready w

theorem behind_taken {file : Path} (there : w.file s.table = some file)
    (files : s.files <:+ backups s.table) : s.Taken w := by
  refine .inl fun same => ?_
  rw [there] at same
  have mem := List.mem_of_head? same.symm
  exact (file_apart there).1 (files.subset mem)

/-- A step that keeps what the table of a save is and where, and puts nothing but the table into a file. -/
theorem Save.Ready.step (ready : s.Ready w) (file : ∀ t, w'.file t = w.file t)
    (text : s.Taken w → w'.text s.table = w.text s.table)
    (storage : ∀ t p, w.file t = some p → w'.storage p = w.storage p ∨ w'.storage p = w.text t) :
    s.Ready w' := by
  cases ready with
  | first there files point =>
    refine .first ((file _).trans there) files ?_
    cases at_ : s.point with
    | write need buf n =>
      rw [at_] at point
      rw [text (.inr ⟨need, buf, n, at_⟩)]
      exact point
    | measure => trivial
    | malloc need => trivial
    | serialise need buf => trivial
  | later there files saved point =>
    have same := text (behind_taken there files)
    refine .later ((file _).trans there) files ?_ (same ▸ point)
    rw [same]
    exact (storage _ _ there).elim (fun h => h.trans saved) id

theorem State.Inv.change (inv : w.Inv) {c : Change} (careful : Careful sha256 w (.change c)) :
    (w.change sha256 c).Inv := by
  obtain ⟨storage, tasks⟩ := change_rest sha256 w c
  refine ⟨fun t file there clean => ?_, fun i s going => ?_⟩
  · rw [change_file] at there
    rw [storage]
    rcases change_dirties sha256 w c t with ⟨text, dirty⟩ | raised
    · rw [text]
      exact inv.kept t file there (dirty ▸ clean)
    · rw [raised] at clean
      cases clean
  · rw [tasks] at going
    exact (inv.ready i s going).step (change_file c) (careful i s going) fun t p _ => .inl (by rw [storage])

theorem upd_some {α : Type} {f : Nat → Option α} {i j : Nat} {a : Option α} {b : α}
    (h : upd f i a j = some b) : a = some b ∨ f j = some b := by
  by_cases same : j = i
  · subst same
    exact .inl (upd_same.symm.trans h)
  · exact .inr ((upd_ne same).symm.trans h)

/-- A step of a save that changes neither tables nor files. -/
theorem State.Inv.moved (inv : w.Inv) {i : Nat} {next : Save} (ready : next.Ready w) :
    ({ w with tasks := upd w.tasks i (some next) } : State).Inv := by
  refine ⟨inv.kept, fun j s going => ?_⟩
  have before : s.Ready w := (upd_some going).elim (fun same => Option.some.inj same ▸ ready) (inv.ready j s)
  exact before.step (fun _ => rfl) (fun _ => rfl) fun _ _ _ => .inl rfl

theorem State.Inv.call (inv : w.Inv) (i : Nat) (t : Which) : (w.call i t).Inv := by
  unfold State.call
  split
  · exact inv
  · rename_i file there
    exact inv.moved (.first there rfl trivial)

theorem State.Inv.marked (inv : w.Inv) {i : Nat} (ready : s.Ready w) (empty : s.files = []) :
    ({ w.markClean s.table with tasks := upd w.tasks i none } : State).Inv := by
  have saved : ∀ file, w.file s.table = some file → w.storage file = w.text s.table := by
    intro file there
    cases ready with
    | first _ files _ =>
      rw [files] at empty
      cases empty
    | later there' _ saved _ => exact Option.some.inj (there'.symm.trans there) ▸ saved
  refine ⟨fun t file there clean => ?_, fun j s' going => ?_⟩
  · have there : w.file t = some file := (markClean_file s.table).symm.trans there
    have clean : (w.markClean s.table).dirty t = false := clean
    show (w.markClean s.table).storage file = (w.markClean s.table).text t
    rw [markClean_storage, markClean_text]
    rw [markClean_dirty] at clean
    by_cases same : t = s.table
    · subst same
      exact saved file there
    · rw [if_neg same] at clean
      exact inv.kept t file there clean
  · rcases upd_some going with no | going
    · cases no
    · exact (inv.ready j s' going).step (fun t => markClean_file s.table) (fun _ => markClean_text s.table)
        fun _ _ p => .inl (congrFun (markClean_storage s.table) _)

/-- A write to a table's own file puts the table there, or leaves the file as it was. -/
theorem State.Inv.written (inv : w.Inv) {i : Nat} {path : Path} {content : List UInt8} {next : Save}
    (own : ∀ t, w.file t = some path → content = w.storage path ∨ content = w.text t)
    (ready : next.Ready { w with storage := upd w.storage path content }) :
    ({ w with storage := upd w.storage path content, tasks := upd w.tasks i (some next) } : State).Inv := by
  have stored (t : Which) (p : Path) (there : w.file t = some p) :
      upd w.storage path content p = w.storage p ∨ upd w.storage path content p = w.text t := by
    by_cases same : p = path
    · subst same
      rw [upd_same]
      exact own t there
    · rw [upd_ne same]
      exact .inl rfl
  have mid : ({ w with storage := upd w.storage path content } : State).Inv := by
    refine ⟨fun t file there clean => ?_, fun j s going => ?_⟩
    · exact (stored t file there).elim (fun h => h.trans (inv.kept t file there clean)) id
    · exact (inv.ready j s going).step (fun _ => rfl) (fun _ => rfl) stored
  exact mid.moved ready

theorem backups_tail {files : List Path} {file : Path} {t : Which} (behind : file :: files <:+ backups t) :
    files <:+ backups t :=
  (List.suffix_cons file files).trans behind

/-- One step of a save, while its table's own file is served. -/
theorem State.Inv.go (inv : w.Inv) {i : Nat} {given : Option (Nat → UInt8)} {failed : Option (List UInt8)}
    (going : w.tasks i = some s) (careful : w.file s.table = s.files.head? → s.Served w given failed) :
    (w.go i given failed s).Inv := by
  have ready := inv.ready i s going
  unfold State.go
  split
  · rename_i empty
    exact inv.marked ready empty
  · rename_i path files all
    cases ready with
    | first there plan point =>
      obtain ⟨rfl, rfl⟩ := List.cons.inj (all.symm.trans plan)
      have careful := careful (by rw [there, all]; rfl)
      unfold Save.Served at careful
      split
      · exact inv.moved (.first there plan trivial)
      · rename_i at_
        rw [at_] at careful
        split
        · -- the file holds the table already
          have saved := inv.kept s.table path there (careful rfl)
          exact inv.moved (.later there (List.suffix_refl _) saved trivial)
        · exact inv.moved (.first there plan trivial)
      · rename_i need buf at_
        rw [at_] at careful
        refine inv.moved (.first there plan ?_)
        rw [serialise_need]
        exact ⟨filled_text careful buf, Nat.le_succ_of_le careful⟩
      · rename_i need buf n at_
        rw [at_] at careful point
        obtain ⟨text, -⟩ := point
        have content : failed.getD (window buf 0 n) = w.text s.table := by
          cases failed with
          | none => exact text
          | some left =>
            obtain ⟨clean, same⟩ := careful (Option.some_ne_none left)
            rw [all] at same
            exact (Option.some.inj same).trans (inv.kept s.table path there clean)
        refine inv.written (fun t own => .inr ?_) (.later there (List.suffix_refl _) ?_ trivial)
        · rw [(file_apart there).2 own]
          exact content
        · exact upd_same.trans content
    | later there behind saved point =>
      rw [all] at behind
      have rest := backups_tail behind
      split
      · exact inv.moved (.later there (all ▸ behind) saved (Nat.le_of_eq (serialise_need w s.table 0).symm))
      · rename_i need at_
        rw [at_] at point
        split
        · exact inv.moved (.later there rest saved trivial)
        · exact inv.moved (.later there (all ▸ behind) saved point)
      · rename_i need buf at_
        rw [at_] at point
        refine inv.moved (.later there (all ▸ behind) saved ?_)
        rw [serialise_need]
        exact Nat.le_succ_of_le point
      · have shadow := behind.subset List.mem_cons_self
        refine inv.written (fun t own => absurd shadow (file_apart own).1) (.later there rest ?_ trivial)
        refine (upd_ne ?_).trans saved
        rintro rfl
        exact (file_apart there).1 shadow

theorem State.Inv.step {a : Action} (inv : w.Inv) (careful : Careful sha256 w a)
    (taken : Saving.step sha256 w a = some w') : w'.Inv := by
  cases a with
  | change c =>
    obtain rfl := Option.some.inj taken
    exact inv.change careful
  | call i t =>
    change (if (w.tasks i).isNone then some (w.call i t) else none) = some w' at taken
    split at taken
    · obtain rfl := Option.some.inj taken
      exact inv.call i t
    · cases taken
  | go i given failed =>
    obtain ⟨s, going, rfl⟩ := Option.map_eq_some_iff.mp taken
    exact inv.go going (careful s going)

theorem State.Inv.within (inv : w.Inv) : w.Within := by
  intro i s need buf n going at_
  cases inv.ready i s going with
  | first _ _ point =>
    rw [at_] at point
    exact point.2
  | later _ _ _ point =>
    rw [at_] at point
    exact point

/-- In a run that is careful at every step, from a state without saves in which the clear flags are right, the
clear flags stay right, and no save hands the storage more than its buffer has. -/
theorem saves_keep {start : State} (kept : start.Kept) (idle : ∀ i, start.tasks i = none)
    (run : Run (step sha256) (Careful sha256) start w) : w.Kept ∧ w.Within := by
  have inv : w.Inv := run.invariant ⟨kept, fun i s no => by rw [idle] at no; cases no⟩
    fun _ _ _ inv careful taken => inv.step careful taken
  exact ⟨inv.kept, inv.within⟩

/-- A device on which nothing is set. -/
def blank : State := ⟨fresh, Users.empty, fun _ => [], fun _ => none⟩

theorem blank_kept : blank.Kept := by
  intro t file there _
  cases t with
  | registry => rfl
  | users => rfl
  | scope => cases there

/-- A setting, while task 0 saves the registry. -/
def setting : Action := .change (.regSet ⟨ascii "a", by decide⟩ ⟨ascii "b", by decide⟩)

/-- The next step, with memory and storage that work. -/
def works : Action := .go 0 (some fun _ => 0) none

/-- The next step, without memory. -/
def starves : Action := .go 0 none none

theorem saves_keep_setting : ∃ w, exec (step Users.noDigest) blank
      [setting, .call 0 .registry, works, works, works, works, works, works, works, works, works] = some w ∧
    w.dirty .registry = false ∧ w.storage regFile = ascii "a=b\n" ∧ w.Kept ∧ w.Within := by
  refine ⟨_, rfl, rfl, by decide, @saves_keep Users.noDigest _ _ blank_kept (fun _ => rfl) ?_⟩
  refine .head (a := setting) (fun i s no => by cases no) rfl ?_
  refine .head (a := .call 0 .registry) trivial rfl ?_
  refine .head (a := works) (fun s going _ => Option.some.inj going ▸ trivial) rfl ?_
  refine .head (a := works) (fun s going _ => Option.some.inj going ▸ fun no => by cases no) rfl ?_
  refine .head (a := works) (fun s going _ => Option.some.inj going ▸ (show 4 ≤ 4 from Nat.le_refl 4)) rfl ?_
  refine .head (a := works) (fun s going _ => Option.some.inj going ▸ fun no => absurd rfl no) rfl ?_
  refine .head (a := works) (fun s going _ => Option.some.inj going ▸ trivial) rfl ?_
  refine .head (a := works) (fun s going _ => Option.some.inj going ▸ fun no => by cases no) rfl ?_
  refine .head (a := works) (fun s going _ => Option.some.inj going ▸ (show 4 ≤ 4 from Nat.le_refl 4)) rfl ?_
  refine .head (a := works) (fun s going _ => Option.some.inj going ▸ fun no => absurd rfl no) rfl ?_
  refine .head (a := works) (fun s going _ => Option.some.inj going ▸ trivial) rfl ?_
  exact .refl

/-- Without memory for either copy a setting is marked clean and is in no file; and a setting behind the
measure makes a save hand over more than its buffer. -/
theorem not_saves_keep : blank.Kept ∧ (∀ i, blank.tasks i = none) ∧
    (∃ w, exec (step Users.noDigest) blank
      [setting, .call 0 .registry, works, starves, works, starves, works] = some w ∧ ¬w.Kept) ∧
    ∃ w, exec (step Users.noDigest) blank [.call 0 .registry, works, works, setting, works] = some w ∧
      ¬w.Within := by
  refine ⟨blank_kept, fun _ => rfl, ⟨_, rfl, fun kept => ?_⟩, ⟨_, rfl, fun within => ?_⟩⟩
  · exact absurd (kept .registry regFile rfl rfl) (by decide)
  · exact absurd (within 0 _ _ _ _ rfl rfl) (by decide)

end RPCortex.Settings.Saving
