import RPCortex.Lib.Run
import RPCortex.Settings.RoundTrip
import RPCortex.Settings.Users

/-! `persist.cpp`: the tables in their files.  A storage holds the bytes of each path, none of them
when there is no such file; writes succeed and reads return what was written, as far as the buffer
of the reader holds it. -/

namespace RPCortex.Settings

open Lib

/-- `CFG_BUF`. -/
abbrev cfgBuf : Nat := 4096

/-- A path. -/
abbrev Path := List UInt8

/-- The files of the device. -/
abbrev Storage := Path → List UInt8

/-- `REG_FILE`. -/
def regFile : Path := ascii "/os/registry.cfg"

/-- `USERS_FILE`. -/
def usersFile : Path := ascii "/os/users.cfg"

/-- `REG_FILE_OLD`. -/
def regFileOld : Path := ascii "registry.cfg"

/-- `USERS_FILE_OLD`. -/
def usersFileOld : Path := ascii "users.cfg"

/-- `REG_BACKUP`. -/
def regBackup : Path := ascii "/os/registry.bak"

/-- `USERS_BACKUP`. -/
def usersBackup : Path := ascii "/os/users.bak"

/-- What `persist.cpp` is handed of a module that keeps a table in a state `σ`. -/
structure Module (σ : Type) where
  loader : List UInt8 → σ → σ
  count : σ → Nat
  ser : Nat → σ → List UInt8 × Nat

/-- What a load had to do. -/
structure Repair where
  restored : Bool
  lost : Bool

section Files

variable {σ : Type}

/-- `load_one`. -/
def loadOne (file : Path) (loader : List UInt8 → σ → σ) (st : Storage) (s : σ) : Bool × σ :=
  if (st file).take (cfgBuf - 1) = [] then (false, s)
  else (true, loader ((st file).take (cfgBuf - 1)) s)

/-- `save_one`: the serialiser says how much it needs, and then writes to a buffer of that size. -/
def saveOne (file : Path) (ser : Nat → σ → List UInt8 × Nat) (s : σ) (st : Storage) : Storage :=
  let need := (ser 0 s).2
  upd st file (ser (need + 1) s).1

/-- `load_healing`. -/
def loadHealing (file oldFile backup : Path) (m : Module σ) (st : Storage) (s : σ) :
    σ × Storage × Repair :=
  let (found, s) := loadOne file m.loader st s
  let s := if found then s else (loadOne oldFile m.loader st s).2
  if 0 < m.count s then (s, saveOne backup m.ser s st, ⟨false, false⟩)
  else
    let s := (loadOne backup m.loader st s).2
    if 0 < m.count s then (s, saveOne file m.ser s st, ⟨true, false⟩)
    else (s, st, ⟨false, true⟩)

end Files

/-- The registry as `persist.cpp` sees it. -/
def registryModule : Module Registry where
  loader := Registry.regLoad
  count r := r.dev.entries.length
  ser := Registry.regSerialize

/-- The accounts as `persist.cpp` sees them. -/
def usersModule : Module Users where
  loader := Users.usersLoad
  count u := u.users.length
  ser := Users.usersSerialize

/-- The settings in memory and the files. -/
structure Device where
  registry : Registry
  users : Users
  storage : Storage

namespace Device

/-- `persist_save_registry`. -/
def persistSaveRegistry (d : Device) : Device :=
  let st := saveOne regFile registryModule.ser d.registry d.storage
  { d with
    storage := saveOne regBackup registryModule.ser d.registry st
    registry := { d.registry with dirty := false } }

/-- `persist_save_users`. -/
def persistSaveUsers (d : Device) : Device :=
  let st := saveOne usersFile usersModule.ser d.users d.storage
  { d with
    storage := saveOne usersBackup usersModule.ser d.users st
    users := { d.users with dirty := false } }

/-- `persist_load_all`, with the repairs of the registry and of the accounts. -/
def persistLoadAll (d : Device) : Device × Repair × Repair :=
  let reg := loadHealing regFile regFileOld regBackup registryModule d.storage d.registry
  let usr := loadHealing usersFile usersFileOld usersBackup usersModule reg.2.1 d.users
  (⟨reg.1, usr.1, usr.2.1⟩, reg.2.2, usr.2.2)

/-- The device after a reboot: only the files are left. -/
def reboot (d : Device) : Device := ⟨Registry.fresh, Users.empty, d.storage⟩

end Device

/-! ### One table -/

/-- How a module's table reads and writes: it is a list of items, what a text loads does not depend
on what was there, and a serialiser with room for it writes the text of the items. -/
structure Module.Reads {σ ι : Type} (m : Module σ) (items : σ → List ι)
    (parse : List UInt8 → List ι) (textOf : List ι → List UInt8) : Prop where
  loader : ∀ text s, items (m.loader text s) = parse text
  count : ∀ s, m.count s = (items s).length
  ser : ∀ s, (m.ser ((m.ser 0 s).2 + 1) s).1 = textOf (items s)
  parse_nil : parse [] = []
  textOf_nil : ∀ l, textOf l = [] ↔ l = []

section Reads

variable {σ ι : Type} {m : Module σ} {items : σ → List ι} {parse : List UInt8 → List ι}
  {textOf : List ι → List UInt8} {file oldFile backup p : Path} {st : Storage} {s : σ}

theorem saveOne_eq (h : m.Reads items parse textOf) :
    saveOne file m.ser s st = upd st file (textOf (items s)) := by
  rw [saveOne, h.ser]

/-- A load gives what the file reads as, or leaves what was there when the file holds nothing. -/
theorem items_loadOne (h : m.Reads items parse textOf) :
    items (loadOne file m.loader st s).2 =
      if (st file).take (cfgBuf - 1) = [] then items s
      else parse ((st file).take (cfgBuf - 1)) := by
  unfold loadOne
  split
  · rfl
  · exact h.loader _ _

theorem loadOne_fst :
    (loadOne file m.loader st s).1 = decide ((st file).take (cfgBuf - 1) ≠ []) := by
  unfold loadOne
  split
  · rename_i none
    exact (decide_eq_false (not_not.mpr none)).symm
  · rename_i some
    exact (decide_eq_true some).symm

theorem take_cfgBuf_eq_nil {text : List UInt8} : text.take (cfgBuf - 1) = [] ↔ text = [] := by
  rw [List.take_eq_nil_iff]
  exact ⟨fun h => h.resolve_left (by decide), .inr⟩

/-- The rest of `load_healing`, from the state after the file and the old file were tried. -/
theorem loadHealing_eq (file oldFile backup : Path) (m : Module σ) (st : Storage) (s : σ) :
    ∃ s', s' = (if (loadOne file m.loader st s).1 then (loadOne file m.loader st s).2
        else (loadOne oldFile m.loader st (loadOne file m.loader st s).2).2) ∧
      loadHealing file oldFile backup m st s =
        if 0 < m.count s' then (s', saveOne backup m.ser s' st, ⟨false, false⟩)
        else if 0 < m.count (loadOne backup m.loader st s').2 then
          ((loadOne backup m.loader st s').2,
            saveOne file m.ser (loadOne backup m.loader st s').2 st, ⟨true, false⟩)
        else ((loadOne backup m.loader st s').2, st, ⟨false, true⟩) :=
  ⟨_, rfl, rfl⟩

/-- What `load_healing` makes of files that hold the text of `l`, started from an empty table: the
items are those the file reads as, or for an empty `l` those the old file reads as, and the backup
then holds the text of these, unless there are none. -/
theorem loadHealing_saved (h : m.Reads items parse textOf) (l : List ι) (hfile : st file = textOf l)
    (hbackup : st backup = textOf l) (empty : items s = []) {read : List ι}
    (hread : read = if l = [] then parse ((st oldFile).take (cfgBuf - 1))
      else parse ((textOf l).take (cfgBuf - 1))) :
    items (loadHealing file oldFile backup m st s).1 = read ∧
      (loadHealing file oldFile backup m st s).2.1 backup =
        if read = [] then textOf l else textOf read := by
  obtain ⟨s', hs', unfolded⟩ := loadHealing_eq file oldFile backup m st s
  have first : items s' = read := by
    rw [hs', loadOne_fst, hfile]
    by_cases hl : l = []
    · have none : (textOf l).take (cfgBuf - 1) = [] := by
        rw [take_cfgBuf_eq_nil, h.textOf_nil, hl]
      simp only [none, ne_eq, not_true, decide_false, Bool.false_eq_true, if_false]
      rw [items_loadOne h, items_loadOne h, hfile, if_pos none, empty]
      rw [hread, if_pos hl]
      split
      · rename_i hold
        rw [hold, h.parse_nil]
      · rfl
    · have some : (textOf l).take (cfgBuf - 1) ≠ [] := by
        rw [ne_eq, take_cfgBuf_eq_nil, h.textOf_nil]
        exact hl
      rw [decide_eq_true some, if_pos rfl, items_loadOne h, hfile, if_neg some]
      rw [hread, if_neg hl]
  -- the backup reads as the file did
  have second : read = [] → items (loadOne backup m.loader st s').2 = [] := by
    intro none
    rw [items_loadOne h, hbackup, first]
    split
    · exact none
    · rename_i some
      have hl : l ≠ [] := by
        rintro rfl
        rw [(h.textOf_nil []).mpr rfl] at some
        exact some rfl
      rwa [hread, if_neg hl] at none
  rw [unfolded, h.count, h.count, first]
  by_cases none : read = []
  · rw [second none, none]
    simp only [List.length_nil, Nat.lt_irrefl, if_false, if_true]
    exact ⟨second none, hbackup⟩
  · rw [if_pos (List.length_pos_iff.mpr none), if_neg none, saveOne_eq h, first]
    exact ⟨rfl, upd_same⟩

/-- `load_healing` writes to no other file than its own two. -/
theorem loadHealing_other (hfile : p ≠ file) (hbackup : p ≠ backup) :
    (loadHealing file oldFile backup m st s).2.1 p = st p := by
  obtain ⟨s', -, unfolded⟩ := loadHealing_eq file oldFile backup m st s
  rw [unfolded]
  split
  · exact upd_ne hbackup
  · split
    · exact upd_ne hfile
    · rfl

end Reads

end RPCortex.Settings
