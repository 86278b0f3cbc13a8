import RPCortex.Settings.Persist

/-! The signed-in user's own settings: `persist_save_scope`, `persist_scope_enter` and
`persist_scope_leave`, and the steps of a device on which users come and go, settings are set and
read, and tables are saved. -/

namespace RPCortex.Settings

open Lib Registry

/-- The characters that `scope_path` refuses in a name. -/
def separators : List UInt8 := ascii "/\\:"

/-- `scope_path`, in a buffer of 64 bytes. -/
def scopePath (user : CString) : Option Path :=
  if user.bytes = [] ∨ user.bytes.any separators.contains then none
  else some ((ascii "/home/" ++ user.bytes ++ ascii "/settings.cfg").take 63)

namespace Device

/-- `persist_save_scope`. -/
def persistSaveScope (d : Device) : Device :=
  match scopePath d.registry.scope with
  | none => d
  | some path =>
    { d with
      storage := saveOne path regScopeSerialize d.registry d.storage
      registry := { d.registry with usrDirty := false } }

/-- `persist_scope_leave`. -/
def persistScopeLeave (d : Device) : Device :=
  let d := if d.registry.usrDirty then d.persistSaveScope else d
  { d with registry := d.registry.regScopeClear }

/-- `persist_scope_enter`.  A null text loads as one without lines. -/
def persistScopeEnter (user : CString) (d : Device) : Device :=
  let d := d.persistScopeLeave
  match scopePath user with
  | none => d
  | some path =>
    let r := (loadOne path regScopeLoad d.storage (d.registry.regScopeLoad [])).2
    { d with registry := { r.regScopeSet user with usrDirty := false } }

/-- `persist_save_dirty`. -/
def persistSaveDirty (d : Device) : Device :=
  let d := if d.registry.dirty then d.persistSaveRegistry else d
  let d := if d.users.dirty then d.persistSaveUsers else d
  if d.registry.usrDirty then d.persistSaveScope else d

end Device

/-- A setting that a user made. -/
structure Choice where
  user : CString
  entry : Entry
  deriving DecidableEq

/-- The device, and the users' settings that `reg_set` took, in their order. -/
structure Session where
  device : Device
  history : List Choice

inductive Action
  | enter (user : CString)
  | leave
  | set (key val : CString)
  | get (key : CString) (default : Option CString)
  | saveRegistry
  | saveUsers
  | saveScope
  | saveDirty

namespace Session

/-- The choice that a `reg_set` call makes, when it is accepted and the key is a user's. -/
def choice (r : Registry) (key val : CString) : Option Choice :=
  if regIsUserKey key ∧ (r.regSet key val).1 then
    (entryOf key val).map fun entry => ⟨r.scope, entry⟩
  else none

/-- One step. -/
def step (s : Session) : Action → Option Session
  | .enter user => some { s with device := s.device.persistScopeEnter user }
  | .leave => some { s with device := s.device.persistScopeLeave }
  | .set key val =>
    some ⟨{ s.device with registry := (s.device.registry.regSet key val).2 },
      s.history ++ (choice s.device.registry key val).toList⟩
  | .get _ _ => some s
  | .saveRegistry => some { s with device := s.device.persistSaveRegistry }
  | .saveUsers => some { s with device := s.device.persistSaveUsers }
  | .saveScope => some { s with device := s.device.persistSaveScope }
  | .saveDirty => some { s with device := s.device.persistSaveDirty }

/-- The last value that a user gave a key. -/
def lastChoice (history : List Choice) (user key : CString) : Option CString :=
  ((history.filter fun c => c.user = user ∧ c.entry.key = key).getLast?).map (·.entry.val)

/-- A device on which nobody has signed in yet: what is set for the whole device, the accounts and
the files of the system are any, and no user has a settings file. -/
structure Start (s : Session) : Prop where
  history : s.history = []
  inactive : s.device.registry.active = false
  saved : s.device.registry.usrDirty = false
  files : ∀ user path, scopePath user = some path → s.device.storage path = []

/-- What keeps users apart.  A user's file holds entries that this user set; a read gives the last
value that the signed-in user gave the key, then the device's value, which for a user's key is the
one from the start, then the default; and without a user, a user's key is not set. -/
structure Isolated (start s : Session) : Prop where
  files : ∀ user path, scopePath user = some path → user.bytes.length < usrScopeMax →
    ∃ l : List Entry, s.device.storage path = unlines newline (l.map entryLine) ∧
      ∀ e ∈ l, ⟨user, e⟩ ∈ s.history
  reads : ∀ key default, s.device.registry.regGet key default =
    (if s.device.registry.active && regIsUserKey key then
      lastChoice s.history s.device.registry.scope key else none).or
      ((s.device.registry.dev.lookup key).or default)
  device : ∀ key, regIsUserKey key →
    s.device.registry.dev.lookup key = start.device.registry.dev.lookup key
  refused : s.device.registry.active = false → ∀ key val, regIsUserKey key →
    s.device.registry.regSet key val = (false, s.device.registry)

/-- A step that the settings files can represent: a name that the scope holds in full, and of a
setting that a user makes, a key and a value that read back from a line as they are. -/
def Representable (s : Session) : Action → Prop
  | .enter user => user.bytes.length < usrScopeMax
  | .set key val =>
    s.device.registry.active ∧ regIsUserKey key →
      equals ∉ key.bytes ∧ newline ∉ key.bytes ∧ newline ∉ val.bytes
  | _ => True

instance (s : Session) : (a : Action) → Decidable (Representable s a)
  | .enter user => inferInstanceAs (Decidable (user.bytes.length < usrScopeMax))
  | .set key val => inferInstanceAs (Decidable
      (s.device.registry.active ∧ regIsUserKey key →
        equals ∉ key.bytes ∧ newline ∉ key.bytes ∧ newline ∉ val.bytes))
  | .leave | .get _ _ | .saveRegistry | .saveUsers | .saveScope | .saveDirty =>
    inferInstanceAs (Decidable True)

end Session

end RPCortex.Settings
