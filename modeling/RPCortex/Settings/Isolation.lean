import RPCortex.Settings.Scope
import RPCortex.Settings.Survive

/-! Users keep to their own settings.  What a user set is a table of its own, and the invariant says
that the table in memory is the one of the signed-in user and that every user's file holds the
user's table, or for the one with unsaved changes an earlier version of it. -/

namespace RPCortex.Settings

open Lib Registry

/-! ### A user's table in a file -/

/-- The lines of clean entries with users' keys, loaded behind a table with other keys. -/
theorem scopeLines_entries {l : List Entry} (clean : ∀ e ∈ l, e.Clean)
    (own : ∀ e ∈ l, regIsUserKey e.key) (t : Table regUserMax)
    (distinct : ((t.entries ++ l).map Entry.key).Nodup)
    (bounded : t.entries.length + l.length ≤ regUserMax) :
    (scopeLines t (l.map entryLine)).entries = t.entries ++ l := by
  induction l generalizing t with
  | nil => simp [scopeLines]
  | cons e rest ih =>
    have new : e.key ∉ t.entries.map Entry.key := by
      rw [List.map_append, List.map_cons] at distinct
      intro hmem
      exact (List.nodup_append.mp distinct).2.2 _ hmem e.key (by simp) rfl
    rw [List.length_cons] at bounded
    obtain ⟨t', hput, ht'⟩ := Table.put_new new (by omega)
    have step : loadLine t (e.key, e.val) = t' := by simp [loadLine, entryOf_self, hput]
    have user : (!regIsUserKey e.key) = false := by simp [own e (by simp)]
    rw [List.map_cons, scopeLines, parseLine_entryLine (clean e (by simp))]
    simp only [step, user, Bool.false_eq_true, if_false]
    rw [if_neg (by omega), ih (fun x hx => clean x (by simp [hx]))
      (fun x hx => own x (by simp [hx])) t' (by rw [ht']; simpa using distinct)
      (by rw [ht', List.length_append, List.length_singleton]; omega), ht']
    simp

/-- A user's table comes back from its text. -/
theorem scopeLines_tableText {t : Table regUserMax} (clean : ∀ e ∈ t.entries, e.Clean)
    (own : ∀ e ∈ t.entries, regIsUserKey e.key) :
    scopeLines .empty (splitLines newline (tableText t)) = t := by
  apply Table.ext
  rw [splitLines_tableText clean]
  have := scopeLines_entries clean own .empty (by simpa [Table.empty] using t.distinct)
    (by simpa [Table.empty] using t.bounded)
  simpa [Table.empty] using this

/-- The text of a user's table fits the loader's buffer. -/
theorem length_tableText_le (t : Table regUserMax) : (tableText t).length ≤ cfgBuf - 1 := by
  have lines : ∀ l : List Entry, (unlines newline (l.map entryLine)).length ≤ 138 * l.length := by
    intro l
    induction l with
    | nil => simp
    | cons e rest ih =>
      have := length_entryLine_le e
      simp only [regKeyMax, regValMax] at this
      simp only [List.map_cons, unlines_cons, List.length_append, List.length_cons]
      omega
  have text := lines t.entries
  have bounded := t.bounded
  simp only [regUserMax] at bounded
  simp only [tableText, cfgBuf]
  omega

theorem scopeSerialize_eq (r : Registry) :
    (r.regScopeSerialize ((r.regScopeSerialize 0).2 + 1)).1 = tableText r.usr := by
  have need : (r.regScopeSerialize 0).2 = (tableText r.usr).length := by
    rw [regScopeSerialize, serializeFrom_need, Nat.zero_add]
    rfl
  have := serializeFrom_eq ((r.regScopeSerialize 0).2 + 1) [] (r.usr.entries.map entryLine)
    (by rw [need]; simp [tableText])
  exact congrArg Prod.fst this

theorem saveOne_scope (path : Path) (r : Registry) (st : Storage) :
    saveOne path regScopeSerialize r st = upd st path (tableText r.usr) := by
  rw [saveOne, scopeSerialize_eq]

/-! ### Paths -/

theorem scopePath_head {user : CString} {path : Path} (h : scopePath user = some path) :
    path.take 2 = ascii "/h" := by
  unfold scopePath at h
  split at h
  · cases h
  · obtain rfl := Option.some.inj h
    rw [List.take_take, List.append_assoc, List.take_append_of_le_length (by decide)]
    decide

/-- A user's file is none of the system's. -/
theorem scopePath_ne {user : CString} {path : Path} (h : scopePath user = some path) :
    regFile ≠ path ∧ regBackup ≠ path ∧ usersFile ≠ path ∧ usersBackup ≠ path := by
  have head := scopePath_head h
  refine ⟨?_, ?_, ?_, ?_⟩ <;> rintro rfl <;> revert head <;> decide

/-- The path of a name that the scope can hold is all there. -/
theorem scopePath_short {user : CString} {path : Path} (h : scopePath user = some path)
    (short : user.bytes.length < usrScopeMax) :
    path = ascii "/home/" ++ user.bytes ++ ascii "/settings.cfg" := by
  have home : (ascii "/home/").length = 6 := by decide
  have file : (ascii "/settings.cfg").length = 13 := by decide
  unfold scopePath at h
  split at h
  · cases h
  · obtain rfl := Option.some.inj h
    apply List.take_of_length_le
    simp only [List.length_append, home, file]
    simp only [usrScopeMax] at short
    omega

/-- Users with different names have different files. -/
theorem scopePath_inj {u v : CString} {path : Path} (hu : scopePath u = some path)
    (hv : scopePath v = some path) (shortU : u.bytes.length < usrScopeMax)
    (shortV : v.bytes.length < usrScopeMax) : u = v := by
  have same := (scopePath_short hu shortU).symm.trans (scopePath_short hv shortV)
  exact CString.ext (List.append_cancel_left (List.append_cancel_right same))

namespace Session

/-! ### What a user set -/

/-- The table that a user's choices make. -/
def ownTable (history : List Choice) (user : CString) : Table regUserMax :=
  (history.filter fun c => c.user = user).foldl (fun t c => (t.put c.entry).getD t) .empty

theorem ownTable_append_same (history : List Choice) (c : Choice) :
    ownTable (history ++ [c]) c.user =
      ((ownTable history c.user).put c.entry).getD (ownTable history c.user) := by
  simp [ownTable, List.filter_append, List.foldl_append]

theorem ownTable_append_other {history : List Choice} {c : Choice} {user : CString}
    (h : user ≠ c.user) : ownTable (history ++ [c]) user = ownTable history user := by
  simp [ownTable, List.filter_append, Ne.symm h]

theorem mem_of_mem_foldl {max : Nat} {l : List Choice} {t : Table max} {e : Entry}
    (h : e ∈ (l.foldl (fun t c => (t.put c.entry).getD t) t).entries) :
    e ∈ t.entries ∨ ∃ c ∈ l, c.entry = e := by
  induction l generalizing t with
  | nil => exact .inl h
  | cons c rest ih =>
    rcases ih h with h | ⟨x, hx, he⟩
    · cases hput : t.put c.entry with
      | none => exact .inl (by simpa [hput] using h)
      | some t' =>
        rcases Table.mem_put hput (by simpa [hput] using h) with rfl | h
        · exact .inr ⟨c, by simp, rfl⟩
        · exact .inl h
    · exact .inr ⟨x, by simp [hx], he⟩

/-- Everything in a user's table is a choice of this user. -/
theorem mem_ownTable {history : List Choice} {user : CString} {e : Entry}
    (h : e ∈ (ownTable history user).entries) : ⟨user, e⟩ ∈ history := by
  rcases mem_of_mem_foldl h with h | ⟨c, hc, rfl⟩
  · cases h
  · obtain ⟨mem, huser⟩ := List.mem_filter.mp hc
    obtain rfl : c.user = user := by simpa using huser
    exact mem

theorem lastChoice_append (history : List Choice) (c : Choice) (user key : CString) :
    lastChoice (history ++ [c]) user key =
      if c.user = user ∧ c.entry.key = key then some c.entry.val
      else lastChoice history user key := by
  unfold lastChoice
  rw [List.filter_append]
  split
  · rename_i h
    simp [h]
  · rename_i h
    simp [h]

/-! ### The invariant -/

/-- A user's file holds the table that a beginning of the history makes, and all of it unless the
user is signed in and has unsaved changes. -/
def Filed (s : Session) (user : CString) (path : Path) : Prop :=
  ∃ h, h <+: s.history ∧ s.device.storage path = tableText (ownTable h user) ∧
    (user ≠ s.device.registry.scope ∨ s.device.registry.usrDirty = false →
      ownTable h user = ownTable s.history user)

structure Inv (start s : Session) : Prop where
  clean : ∀ c ∈ s.history, c.entry.Clean ∧ regIsUserKey c.entry.key
  lookup : ∀ user key, (ownTable s.history user).lookup key = lastChoice s.history user key
  idle : s.device.registry.active = false → s.device.registry.usrDirty = false
  scope : s.device.registry.active = true → s.device.registry.scope.bytes.length < usrScopeMax ∧
    ∃ path, scopePath s.device.registry.scope = some path
  usr : s.device.registry.active = true →
    s.device.registry.usr = ownTable s.history s.device.registry.scope
  files : ∀ user path, scopePath user = some path → user.bytes.length < usrScopeMax →
    s.Filed user path
  device : ∀ key, regIsUserKey key →
    s.device.registry.dev.lookup key = start.device.registry.dev.lookup key

variable {start s : Session}

theorem inv_start (h : Start start) : Inv start start where
  clean := by simp [h.history]
  lookup := by
    intro user key
    simp [h.history, ownTable, lastChoice, Table.lookup, Table.empty]
  idle _ := h.saved
  scope active := by simp [h.inactive] at active
  usr active := by simp [h.inactive] at active
  files user path hpath _ := by
    refine ⟨[], List.nil_prefix, ?_, fun _ => by rw [h.history]⟩
    rw [h.files user path hpath]
    rfl
  device _ _ := rfl

/-- The invariant gives what keeps users apart. -/
theorem Inv.isolated (h : Inv start s) : Isolated start s where
  files := by
    intro user path hpath short
    obtain ⟨past, hpast, text, -⟩ := h.files user path hpath short
    exact ⟨(ownTable past user).entries, text, fun e he => hpast.mem (mem_ownTable he)⟩
  reads := by
    intro key default
    unfold regGet scopedVal
    by_cases user : s.device.registry.active && regIsUserKey key
    · rw [if_pos user, if_pos user]
      rw [Bool.and_eq_true] at user
      rw [h.usr user.1, h.lookup]
      cases lastChoice s.history s.device.registry.scope key with
      | none => rfl
      | some v => rfl
    · rw [if_neg user, if_neg user]
      rfl
  device := h.device
  refused := by
    intro inactive key val user
    unfold regSet
    split
    · rfl
    · rw [if_pos user, inactive]
      rfl

/-! ### What the steps preserve -/

/-- The invariant does not depend on the accounts, on whether the device's table was saved and on
files that are no user's. -/
theorem Inv.congr {t : Session} (h : Inv start s) (history : t.history = s.history)
    (usr : t.device.registry.usr = s.device.registry.usr)
    (usrDirty : t.device.registry.usrDirty = s.device.registry.usrDirty)
    (scope : t.device.registry.scope = s.device.registry.scope)
    (dev : t.device.registry.dev = s.device.registry.dev)
    (files : ∀ user path, scopePath user = some path →
      t.device.storage path = s.device.storage path) : Inv start t where
  clean := by rw [history]; exact h.clean
  lookup := by rw [history]; exact h.lookup
  idle := by simpa [active, usrDirty, scope] using h.idle
  scope := by simpa only [active, scope] using h.scope
  usr := by simpa only [active, usr, scope, history] using h.usr
  files := by
    intro user path hpath short
    have filed := h.files user path hpath short
    unfold Filed at filed ⊢
    rwa [history, files user path hpath, usrDirty, scope]
  device := by rw [dev]; exact h.device

theorem Inv.saveRegistry (h : Inv start s) :
    Inv start { s with device := s.device.persistSaveRegistry } := by
  refine h.congr rfl rfl rfl rfl rfl fun user path hpath => ?_
  obtain ⟨hreg, hbackup, -, -⟩ := scopePath_ne hpath
  exact (upd_ne (Ne.symm hbackup)).trans (upd_ne (Ne.symm hreg))

theorem Inv.saveUsers (h : Inv start s) :
    Inv start { s with device := s.device.persistSaveUsers } := by
  refine h.congr rfl rfl rfl rfl rfl fun user path hpath => ?_
  obtain ⟨-, -, husers, hbackup⟩ := scopePath_ne hpath
  exact (upd_ne (Ne.symm hbackup)).trans (upd_ne (Ne.symm husers))

theorem active_of_scopePath {r : Registry} {path : Path} (h : scopePath r.scope = some path) :
    r.active = true := by
  unfold scopePath at h
  split at h
  · cases h
  · rename_i names
    rw [not_or] at names
    simp only [active, Bool.not_eq_true', List.isEmpty_eq_false_iff]
    exact names.1

theorem Inv.saveScope (h : Inv start s) :
    Inv start { s with device := s.device.persistSaveScope } := by
  unfold Device.persistSaveScope
  cases hscope : scopePath s.device.registry.scope with
  | none => exact h
  | some path =>
    have active := active_of_scopePath hscope
    obtain ⟨short, -⟩ := h.scope active
    refine ⟨h.clean, h.lookup, fun _ => rfl, h.scope, h.usr, ?_, h.device⟩
    intro user other hother shortUser
    simp only [Filed]
    rw [saveOne_scope, h.usr active]
    by_cases same : other = path
    · -- the file that was written is the signed-in user's
      subst same
      obtain rfl := scopePath_inj hother hscope shortUser short
      exact ⟨s.history, List.prefix_rfl, upd_same, fun _ => rfl⟩
    · obtain ⟨past, hpast, text, whole⟩ := h.files user other hother shortUser
      refine ⟨past, hpast, (upd_ne same).trans text, fun _ => whole (.inl ?_)⟩
      rintro rfl
      exact same (Option.some.inj (hother.symm.trans hscope))

/-- Saving the scope leaves no unsaved changes, when there are changes at all only for a user. -/
theorem usrDirty_saveScope (h : Inv start s) :
    (if s.device.registry.usrDirty then s.device.persistSaveScope else s.device).registry.usrDirty =
      false := by
  split
  · rename_i dirty
    have active : s.device.registry.active = true := by
      by_contra inactive
      have := h.idle (Bool.eq_false_iff.mpr inactive)
      rw [this] at dirty
      cases dirty
    obtain ⟨-, path, hpath⟩ := h.scope active
    unfold Device.persistSaveScope
    rw [hpath]
  · rename_i clean
    exact Bool.eq_false_iff.mpr clean

/-- After `persist_scope_leave`, every user's file holds the user's table. -/
theorem Inv.leave (h : Inv start s) :
    Inv start { s with device := s.device.persistScopeLeave } := by
  have saved : Inv start
      { s with device := if s.device.registry.usrDirty then s.device.persistSaveScope
          else s.device } := by
    split
    · exact h.saveScope
    · exact h
  have settled := usrDirty_saveScope h
  unfold Device.persistScopeLeave
  generalize (if s.device.registry.usrDirty then s.device.persistSaveScope else s.device) = d
    at saved settled
  refine ⟨saved.clean, saved.lookup, fun _ => rfl, ?_, ?_, ?_, saved.device⟩
  · intro active
    simp [regScopeClear, Registry.active] at active
  · intro active
    simp [regScopeClear, Registry.active] at active
  · intro user path hpath short
    obtain ⟨past, hpast, text, whole⟩ := saved.files user path hpath short
    exact ⟨past, hpast, text, fun _ => whole (.inr settled)⟩

theorem Inv.enter (h : Inv start s) (user : CString) (short : user.bytes.length < usrScopeMax) :
    Inv start { s with device := s.device.persistScopeEnter user } := by
  have left := h.leave
  unfold Device.persistScopeEnter
  have idle : s.device.persistScopeLeave.registry.usrDirty = false := rfl
  generalize s.device.persistScopeLeave = d at left idle
  cases hpath : scopePath user with
  | none => exact left
  | some path =>
    obtain ⟨past, hpast, text, whole⟩ := left.files user path hpath short
    have table : d.storage path = tableText (ownTable s.history user) := by
      rw [text, whole (.inr idle)]
    -- what is loaded is the user's table
    have loaded : (loadOne path regScopeLoad d.storage (d.registry.regScopeLoad [])).2 =
        { d.registry with usr := ownTable s.history user, usrDirty := false } := by
      have clean : ∀ e ∈ (ownTable s.history user).entries, e.Clean :=
        fun e he => (h.clean _ (mem_ownTable he)).1
      have own : ∀ e ∈ (ownTable s.history user).entries, regIsUserKey e.key :=
        fun e he => (h.clean _ (mem_ownTable he)).2
      have back := scopeLines_tableText clean own
      unfold loadOne
      rw [table, List.take_of_length_le (length_tableText_le _)]
      split
      · rename_i none
        rw [none] at back
        simp only [regScopeLoad]
        rw [back]
      · simp only [regScopeLoad]
        rw [back]
    have name : CString.ofBuffer (user.bytes.take (usrScopeMax - 1)) = user := by
      rw [List.take_of_length_le (by simp only [usrScopeMax] at short ⊢; omega),
        CString.ofBuffer_bytes]
    simp only [loaded, regScopeSet, name]
    refine ⟨left.clean, left.lookup, fun _ => rfl, fun _ => ⟨short, path, hpath⟩, fun _ => rfl, ?_,
      left.device⟩
    intro other file hfile shortOther
    obtain ⟨past, hpast, text, whole⟩ := left.files other file hfile shortOther
    exact ⟨past, hpast, text, fun _ => whole (.inr idle)⟩

/-- What a `reg_set` call does: nothing, or it puts an entry into one of the two tables. -/
theorem regSet_cases (r : Registry) (key val : CString) :
    (r.regSet key val).2 = r ∧ choice r key val = none ∨
    (∃ e usr, e.key = key ∧ e.val = val ∧ r.active = true ∧ regIsUserKey key = true ∧
      r.usr.put e = some usr ∧ (r.regSet key val).2 = { r with usr, usrDirty := true } ∧
      choice r key val = some ⟨r.scope, e⟩) ∨
    ∃ e dev, e.key = key ∧ regIsUserKey key = false ∧ r.dev.put e = some dev ∧
      (r.regSet key val).2 = { r with dev, dirty := true } ∧ choice r key val = none := by
  unfold choice regSet
  cases he : entryOf key val with
  | none => exact .inl ⟨rfl, by simp⟩
  | some e =>
    obtain ⟨hkey, hval⟩ := of_entryOf he
    by_cases user : regIsUserKey key
    · by_cases active : r.active
      · cases hput : r.usr.put e with
        | none => exact .inl (by simp [user, active, hput])
        | some usr =>
          exact .inr (.inl ⟨e, usr, hkey, hval, active, user, hput, by simp [user, active, hput],
            by simp [user, active, hput]⟩)
      · exact .inl (by simp [user, active])
    · unfold devicePut
      cases hput : r.dev.put e with
      | none => exact .inl (by simp [user, hput])
      | some dev =>
        exact .inr (.inr ⟨e, dev, hkey, Bool.eq_false_iff.mpr user, hput, by simp [user, hput],
          by simp [user]⟩)

/-- A user's key does not start as a comment does. -/
theorem head?_userKey {key : CString} (h : regIsUserKey key = true) :
    key.bytes.head? ≠ some hash := by
  obtain ⟨rest, hrest⟩ := List.isPrefixOf_iff_prefix.mp h
  rw [← hrest]
  simp [hash]

theorem Inv.set (h : Inv start s) {key val : CString} (allowed : Representable s (.set key val)) :
    Inv start ⟨{ s.device with registry := (s.device.registry.regSet key val).2 },
      s.history ++ (choice s.device.registry key val).toList⟩ := by
  rcases regSet_cases s.device.registry key val with
    ⟨same, none⟩ | ⟨e, usr, rfl, rfl, active, user, hput, set, choose⟩ |
    ⟨e, dev, rfl, user, hput, set, none⟩
  · rw [same, none]
    exact h.congr (by simp) rfl rfl rfl rfl fun _ _ _ => rfl
  · -- the signed-in user's table gets the entry, and so does the table of the history
    obtain ⟨equals, keyNewline, valNewline⟩ := allowed ⟨active, user⟩
    have clean : e.Clean := ⟨equals, keyNewline, head?_userKey user, valNewline⟩
    rw [set, choose]
    generalize hc : (⟨s.device.registry.scope, e⟩ : Choice) = c
    have scope : c.user = s.device.registry.scope := by rw [← hc]
    have entry : c.entry = e := by rw [← hc]
    have mine : ownTable (s.history ++ [c]) c.user = usr := by
      rw [ownTable_append_same, entry, scope, ← h.usr active, hput]
      rfl
    refine ⟨?_, ?_, ?_, h.scope, fun _ => ?_, ?_, h.device⟩
    · intro x hx
      rcases List.mem_append.mp hx with hx | hx
      · exact h.clean x hx
      · obtain rfl := List.mem_singleton.mp hx
        rw [entry]
        exact ⟨clean, user⟩
    · intro other key
      rw [Option.toList_some, lastChoice_append, entry]
      by_cases same : c.user = other
      · rw [← same, mine, Table.lookup_put hput, h.usr active, ← scope, h.lookup]
        simp only [true_and, eq_comm]
      · rw [ownTable_append_other (Ne.symm same), h.lookup, if_neg fun h => same h.1]
    · intro inactive
      have : s.device.registry.active = false := inactive
      rw [active] at this
      cases this
    · rw [Option.toList_some, ← scope, mine]
    · intro other path hpath short
      obtain ⟨past, hpast, text, whole⟩ := h.files other path hpath short
      refine ⟨past, hpast.trans (List.prefix_append _ _), text, ?_⟩
      rintro (away | saved)
      · rw [Option.toList_some, whole (.inl away), ownTable_append_other]
        rw [scope]
        exact away
      · cases saved
  · -- a key of the device leaves what users' keys find alone
    rw [set, none]
    refine ⟨by simpa using h.clean, by simpa using h.lookup, h.idle, h.scope,
      fun active => by simpa using h.usr active, by simpa [Filed] using h.files, ?_⟩
    intro key hkey
    have other : key ≠ e.key := by
      rintro rfl
      rw [user] at hkey
      cases hkey
    exact (Table.lookup_put hput key).trans ((if_neg other).trans (h.device key hkey))

/-- Every representable step keeps the invariant. -/
theorem Inv.step (h : Inv start s) {a : Action} {t : Session} (allowed : Representable s a)
    (taken : s.step a = some t) : Inv start t := by
  cases a with
  | enter user =>
    obtain rfl := Option.some.inj taken
    exact h.enter user allowed
  | leave =>
    obtain rfl := Option.some.inj taken
    exact h.leave
  | set key val =>
    obtain rfl := Option.some.inj taken
    exact h.set allowed
  | get key default =>
    obtain rfl := Option.some.inj taken
    exact h
  | saveRegistry =>
    obtain rfl := Option.some.inj taken
    exact h.saveRegistry
  | saveUsers =>
    obtain rfl := Option.some.inj taken
    exact h.saveUsers
  | saveScope =>
    obtain rfl := Option.some.inj taken
    exact h.saveScope
  | saveDirty =>
    obtain rfl := Option.some.inj taken
    have registry : ∀ d, Inv start { s with device := d } → Inv start
        { s with device := if d.registry.dirty then d.persistSaveRegistry else d } := by
      intro d hd
      split
      · exact hd.saveRegistry
      · exact hd
    have users : ∀ d, Inv start { s with device := d } → Inv start
        { s with device := if d.users.dirty then d.persistSaveUsers else d } := by
      intro d hd
      split
      · exact hd.saveUsers
      · exact hd
    have scope : ∀ d, Inv start { s with device := d } → Inv start
        { s with device := if d.registry.usrDirty then d.persistSaveScope else d } := by
      intro d hd
      split
      · exact hd.saveScope
      · exact hd
    exact scope _ (users _ (registry _ h))

/-- In every run of representable steps, users come and go, set, read and save, and every state that
is reached keeps them apart. -/
theorem isolated_of_run {start s : Session} (begins : Start start)
    (run : Run step Representable start s) : Isolated start s :=
  (run.invariant (inv_start begins) fun _ _ _ h allowed taken => h.step allowed taken).isolated

/-- A device on which nothing was set and nothing saved. -/
def freshDevice : Session := ⟨⟨fresh, Users.empty, fun _ => []⟩, []⟩

theorem start_freshDevice : Start freshDevice := ⟨rfl, rfl, rfl, fun _ _ _ => rfl⟩

/-- The user `u`. -/
def someone : CString := ⟨ascii "u", by decide⟩

/-- `u` comes in, sets `User.a` to `x`, saves and leaves. -/
def shortVisit : List Action :=
  [.enter someone, .set ⟨ascii "User.a", by decide⟩ ⟨ascii "x", by decide⟩, .saveScope, .leave]

theorem isolated_of_run_shortVisit :
    Isolated freshDevice ((exec step freshDevice shortVisit).get (by decide +kernel)) :=
  isolated_of_run start_freshDevice (.of_exec_get _ (by decide +kernel))

/-- `u` sets `User.a` to `x`, line end, `User.b=y`, leaves and comes back. -/
def lineEndVisit : List Action :=
  [.enter someone, .set ⟨ascii "User.a", by decide⟩ ⟨ascii "x\nUser.b=y", by decide⟩, .leave,
    .enter someone]

/-- A value with a line end in it: `User.b`, which was never set, reads as `y`. -/
theorem not_all_isolated : ¬∀ start s : Session, Start start →
    Run step (fun _ _ => True) start s → Isolated start s := by
  intro all
  have isolated := all freshDevice ((exec step freshDevice lineEndVisit).get (by decide +kernel))
    start_freshDevice (.of_exec_get _ (by decide +kernel))
  have read := isolated.reads ⟨ascii "User.b", by decide⟩ none
  revert read
  decide +kernel

end Session

end RPCortex.Settings
