import RPCortex.Settings.Persist

/-! Saving everything and loading it after a reboot.  The tables come back exactly when their entries
are clean and the text of the registry fits the buffer of the loader, which is a fixed one although
the buffer of the saver is not. -/

namespace RPCortex.Settings

open Lib Registry

/-- The entries that `reg_load` reads in a text. -/
def parseRegistry (text : List UInt8) : List Entry := (regLoad text fresh).dev.entries

/-- The accounts that `users_load` reads in a text. -/
def parseUsers (text : List UInt8) : List User := (Users.usersLoad text Users.empty).users

theorem registry_reads :
    registryModule.Reads (fun r => r.dev.entries) parseRegistry
      fun l => unlines newline (l.map entryLine) where
  loader _ _ := rfl
  count _ := rfl
  ser r := by
    have need : (r.regSerialize 0).2 = (r.regSerialize ((r.regSerialize 0).2 + 1)).2 := by
      simp only [regSerialize, serializeFrom_need]
    have room : (r.regSerialize ((r.regSerialize 0).2 + 1)).2 < (r.regSerialize 0).2 + 1 := by
      rw [← need]
      exact Nat.lt_succ_self _
    exact regSerialize_fst room
  parse_nil := rfl
  textOf_nil l := by
    cases l with
    | nil => simp
    | cons e rest => simp

theorem users_reads : usersModule.Reads Users.users parseUsers Users.usersText where
  loader _ _ := rfl
  count _ := rfl
  ser u := by
    have need : (u.usersSerialize 0).2 = (unlines newline (u.users.map Users.userLine)).length := by
      rw [Users.usersSerialize, serializeFrom_need, Nat.zero_add]
    have := serializeFrom_eq ((u.usersSerialize 0).2 + 1) [] (u.users.map Users.userLine)
      (by rw [need]; simp)
    simp only [List.length_nil, List.nil_append, Nat.zero_add] at this
    exact congrArg Prod.fst this
  parse_nil := rfl
  textOf_nil l := by
    cases l with
    | nil => simp [Users.usersText]
    | cons e rest => simp [Users.usersText]

/-! ### What the buffer of the loader holds -/

/-- A registry comes back from what the loader's buffer holds of its text exactly when its entries
are clean and the buffer holds all but the last line end. -/
theorem parseRegistry_take_iff (t : Table regMax) :
    parseRegistry ((tableText t).take (cfgBuf - 1)) = t.entries ↔
      (∀ e ∈ t.entries, e.Clean) ∧ textLength t ≤ cfgBuf := by
  constructor
  · intro same
    have table : (regLoad ((tableText t).take (cfgBuf - 1)) fresh).dev = t := Table.ext same
    have clean := regLoad_clean ((tableText t).take (cfgBuf - 1)) fresh
    have short := textLength_regLoad ((tableText t).take (cfgBuf - 1)) fresh
    rw [table] at clean short
    have taken : ((tableText t).take (cfgBuf - 1)).length ≤ cfgBuf - 1 := List.length_take_le _ _
    refine ⟨clean, short.trans ?_⟩
    simp only [cfgBuf] at taken ⊢
    omega
  · rintro ⟨clean, fits⟩
    unfold parseRegistry
    rcases Nat.lt_or_ge (cfgBuf - 1) (textLength t) with long | short
    · have cut : (tableText t).take (cfgBuf - 1) = (tableText t).dropLast := by
        rw [List.dropLast_eq_take]
        congr 1
        simp only [textLength, cfgBuf] at long fits ⊢
        omega
      rw [cut, regLoad_tableText_dropLast clean]
    · rw [List.take_of_length_le short, regLoad_tableText clean]

/-- An accounts table always fits the buffer, so it comes back exactly when it is clean. -/
theorem parseUsers_take_iff {l : List User} (bounded : l.length ≤ usrMax) :
    parseUsers ((Users.usersText l).take (cfgBuf - 1)) = l ↔ ∀ u ∈ l, Users.Clean u := by
  have fits : (Users.usersText l).length ≤ cfgBuf - 1 := by
    have := Users.length_usersText_le l
    simp only [cfgBuf, usrMax] at this bounded ⊢
    omega
  rw [List.take_of_length_le fits]
  constructor
  · intro same u hu
    rw [← same] at hu
    exact Users.usersLoad_clean _ _ u hu
  · intro clean
    exact Users.usersLoad_usersText clean bounded _

/-! ### The whole device -/

namespace Device

/-- The device after both tables were saved, a reboot, and a load. -/
def saveAndReload (d : Device) : Device :=
  d.persistSaveRegistry.persistSaveUsers.reboot.persistLoadAll.1

/-- The tables come back, and both backups hold the whole of them. -/
structure Survives (d : Device) : Prop where
  registry : d.saveAndReload.registry.dev = d.registry.dev
  users : d.saveAndReload.users.users = d.users.users
  regBackup : d.saveAndReload.storage regBackup = tableText d.registry.dev
  usersBackup : d.saveAndReload.storage usersBackup = Users.usersText d.users.users

/-- The files that both saves leave. -/
structure Saved (d : Device) (st : Storage) : Prop where
  regFile : st regFile = tableText d.registry.dev
  regBackup : st regBackup = tableText d.registry.dev
  usersFile : st usersFile = Users.usersText d.users.users
  usersBackup : st usersBackup = Users.usersText d.users.users
  regFileOld : st regFileOld = d.storage regFileOld
  usersFileOld : st usersFileOld = d.storage usersFileOld

theorem saved (d : Device) : d.Saved d.persistSaveRegistry.persistSaveUsers.storage := by
  have files : d.persistSaveRegistry.persistSaveUsers.storage =
      upd (upd (upd (upd d.storage Settings.regFile (tableText d.registry.dev)) Settings.regBackup
        (tableText d.registry.dev)) Settings.usersFile (Users.usersText d.users.users))
        Settings.usersBackup (Users.usersText d.users.users) := by
    simp only [persistSaveRegistry, persistSaveUsers, saveOne_eq registry_reads,
      saveOne_eq users_reads]
    rfl
  rw [files]
  refine ⟨?_, ?_, ?_, upd_same, ?_, ?_⟩
  · rw [upd_ne (by decide), upd_ne (by decide), upd_ne (by decide), upd_same]
  · rw [upd_ne (by decide), upd_ne (by decide), upd_same]
  · rw [upd_ne (by decide), upd_same]
  · rw [upd_ne (by decide), upd_ne (by decide), upd_ne (by decide), upd_ne (by decide)]
  · rw [upd_ne (by decide), upd_ne (by decide), upd_ne (by decide), upd_ne (by decide)]

/-- When a list is read back in place of `l`: from the file, or for an empty `l` from an old file. -/
theorem read_back_iff {ι : Type} {l taken : List ι} (old : List ι) {P : Prop} (iff : taken = l ↔ P)
    (nil : l = [] → P) :
    (if l = [] then old else taken) = l ↔ P ∧ (l = [] → old = []) := by
  split
  · rename_i hl
    simp [hl, nil hl]
  · rename_i hl
    simp [hl, iff]

/-- What is in the registry after the reload, read from the files. -/
def regRead (d : Device) : List Entry :=
  if d.registry.dev.entries = [] then parseRegistry ((d.storage regFileOld).take (cfgBuf - 1))
  else parseRegistry ((tableText d.registry.dev).take (cfgBuf - 1))

/-- Which accounts there are after the reload, read from the files. -/
def usrRead (d : Device) : List User :=
  if d.users.users = [] then parseUsers ((d.storage usersFileOld).take (cfgBuf - 1))
  else parseUsers ((Users.usersText d.users.users).take (cfgBuf - 1))

/-- The registry's half of the reload. -/
def regReloaded (st : Storage) : Registry × Storage × Repair :=
  loadHealing regFile regFileOld regBackup registryModule st fresh

/-- The accounts' half of the reload. -/
def usrReloaded (st : Storage) : Users × Storage × Repair :=
  loadHealing usersFile usersFileOld usersBackup usersModule st Users.empty

theorem regReloaded_saved {d : Device} {st : Storage} (files : d.Saved st) :
    (regReloaded st).1.dev.entries = d.regRead ∧
      (regReloaded st).2.1 regBackup =
        if d.regRead = [] then tableText d.registry.dev
        else unlines newline (d.regRead.map entryLine) :=
  loadHealing_saved registry_reads d.registry.dev.entries files.regFile files.regBackup rfl
    (by rw [files.regFileOld]; rfl)

/-- The registry's half leaves the other files alone. -/
theorem regReloaded_other {st : Storage} {p : Path} (hfile : p ≠ regFile)
    (hbackup : p ≠ regBackup) :
    (regReloaded st).2.1 p = st p :=
  loadHealing_other hfile hbackup

theorem usrReloaded_saved {d : Device} {st : Storage}
    (hfile : st usersFile = Users.usersText d.users.users)
    (hbackup : st usersBackup = Users.usersText d.users.users)
    (hold : st usersFileOld = d.storage usersFileOld) :
    (usrReloaded st).1.users = d.usrRead ∧
      (usrReloaded st).2.1 usersBackup =
        if d.usrRead = [] then Users.usersText d.users.users else Users.usersText d.usrRead :=
  loadHealing_saved users_reads d.users.users hfile hbackup rfl (by rw [hold]; rfl)

theorem usrReloaded_other {st : Storage} {p : Path} (hfile : p ≠ usersFile)
    (hbackup : p ≠ usersBackup) : (usrReloaded st).2.1 p = st p :=
  loadHealing_other hfile hbackup

/-- The device survives when what is read is what was saved. -/
theorem survives_iff_read (d : Device) :
    d.Survives ↔ d.regRead = d.registry.dev.entries ∧ d.usrRead = d.users.users := by
  obtain ⟨reg, hreg⟩ : ∃ reg, reg = regReloaded d.persistSaveRegistry.persistSaveUsers.storage :=
    ⟨_, rfl⟩
  have loaded : d.saveAndReload = ⟨reg.1, (usrReloaded reg.2.1).1, (usrReloaded reg.2.1).2.1⟩ := by
    rw [hreg]
    rfl
  have files := d.saved
  obtain ⟨regItems, regKept⟩ := regReloaded_saved files
  have other : ∀ p, p ≠ regFile → p ≠ regBackup →
      reg.2.1 p = d.persistSaveRegistry.persistSaveUsers.storage p := by
    intro p hfile hbackup
    rw [hreg]
    exact regReloaded_other hfile hbackup
  obtain ⟨usrItems, usrKept⟩ := usrReloaded_saved
    ((other _ (by decide) (by decide)).trans files.usersFile)
    ((other _ (by decide) (by decide)).trans files.usersBackup)
    ((other _ (by decide) (by decide)).trans files.usersFileOld)
  have kept : (usrReloaded reg.2.1).2.1 regBackup = reg.2.1 regBackup :=
    usrReloaded_other (by decide) (by decide)
  rw [← hreg] at regItems regKept
  constructor
  · intro survives
    have hr := survives.registry
    have hu := survives.users
    rw [loaded] at hr hu
    exact ⟨regItems.symm.trans (congrArg Table.entries hr), usrItems.symm.trans hu⟩
  · rintro ⟨regSame, usrSame⟩
    refine ⟨?_, ?_, ?_, ?_⟩
    · rw [loaded]
      exact Table.ext (regItems.trans regSame)
    · rw [loaded]
      exact usrItems.trans usrSame
    · rw [loaded]
      refine kept.trans (regKept.trans ?_)
      rw [regSame]
      exact ite_self _
    · rw [loaded]
      refine usrKept.trans ?_
      rw [usrSame]
      exact ite_self _

/-- The registry and the accounts survive a save, a reboot and a load exactly when their entries are
clean, the text of the registry takes at most `CFG_BUF` bytes and no entry of a file at an old place
is taken up for an empty table. -/
theorem survives_iff (d : Device) :
    d.Survives ↔
      (∀ e ∈ d.registry.dev.entries, e.Clean) ∧ textLength d.registry.dev ≤ cfgBuf ∧
      (d.registry.dev.entries = [] →
        parseRegistry ((d.storage regFileOld).take (cfgBuf - 1)) = []) ∧
      (∀ u ∈ d.users.users, Users.Clean u) ∧
      (d.users.users = [] → parseUsers ((d.storage usersFileOld).take (cfgBuf - 1)) = []) := by
  have regIff := read_back_iff (parseRegistry ((d.storage regFileOld).take (cfgBuf - 1)))
    (parseRegistry_take_iff d.registry.dev) (by
      intro none
      exact ⟨by simp [none], by simp [textLength, tableText, none]⟩)
  have usrIff := read_back_iff (parseUsers ((d.storage usersFileOld).take (cfgBuf - 1)))
    (parseUsers_take_iff d.users.bounded) (by
      intro none
      simp [none])
  calc d.Survives
      ↔ d.regRead = d.registry.dev.entries ∧ d.usrRead = d.users.users := survives_iff_read d
    _ ↔ _ := and_congr regIff usrIff
    _ ↔ _ := by rw [and_assoc, and_assoc]

/-! A table of 64 entries with keys of one byte and values of 95 bytes takes 6272 bytes: more than
the loader's buffer. -/

/-- An entry with a key of one byte and a value of 95 letters `x`. -/
def longEntry (c : UInt8) (h : c ≠ 0) : Entry where
  key := ⟨[c], by simpa using Ne.symm h⟩
  val := ⟨List.replicate 95 0x78, by decide⟩
  key_fits := by simp
  val_fits := by simp

/-- A full registry of such entries, in a device without other files. -/
def fullDevice : Device where
  registry :=
    { fresh with
      dev := ⟨(List.finRange 64).map fun i => longEntry (UInt8.ofNat (i.val + 65)) (by
          revert i
          decide), by decide +kernel, by simp⟩ }
  users := Users.empty
  storage := fun _ => []

theorem textLength_fullDevice : textLength fullDevice.registry.dev = 6272 := by
  decide +kernel

/-- A full table without `=` or line ends in its keys and without line ends in its values that does
not come back. -/
theorem not_all_survive : ¬∀ d : Device,
    (∀ e ∈ d.registry.dev.entries, equals ∉ e.key.bytes ∧ newline ∉ e.key.bytes ∧
      newline ∉ e.val.bytes) → d.Survives := by
  intro all
  have read := ((survives_iff_read fullDevice).mp (all fullDevice (by decide +kernel))).1
  have some : fullDevice.registry.dev.entries ≠ [] := by
    intro h
    have := congrArg List.length h
    simp [fullDevice] at this
  rw [regRead, if_neg some] at read
  have fits := ((parseRegistry_take_iff _).mp read).2
  rw [textLength_fullDevice] at fits
  exact absurd fits (by decide)

end Device

end RPCortex.Settings
