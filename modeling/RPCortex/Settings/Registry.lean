import RPCortex.Lib.Bytes
import RPCortex.Lib.Text

/-! The registry of `registry.cpp`: the device's table of settings, the table of the signed-in user
and the name of that user.  A table keeps its keys apart and within its bound, and a file holds a
table as lines `key=value`. -/

namespace RPCortex.Settings

open Lib

/-- `REG_MAX`. -/
abbrev regMax : Nat := 64

/-- `REG_KEY_MAX`. -/
abbrev regKeyMax : Nat := 40

/-- `REG_VAL_MAX`. -/
abbrev regValMax : Nat := 96

/-- `REG_USER_MAX`. -/
abbrev regUserMax : Nat := 24

/-- `USR_SCOPE_MAX`. -/
abbrev usrScopeMax : Nat := 25

abbrev newline : UInt8 := 0x0A

abbrev equals : UInt8 := 0x3D

abbrev hash : UInt8 := 0x23

/-- `Entry`: a key and a value that fit their arrays. -/
structure Entry where
  key : CString
  val : CString
  key_fits : key.bytes.length < regKeyMax
  val_fits : val.bytes.length < regValMax
  deriving DecidableEq

/-- A table of at most `max` entries with different keys. -/
@[ext]
structure Table (max : Nat) where
  entries : List Entry
  distinct : (entries.map Entry.key).Nodup
  bounded : entries.length ≤ max

namespace Table

variable {max : Nat}

def empty : Table max := ⟨[], List.nodup_nil, Nat.zero_le _⟩

/-- `find` and the value found. -/
def lookup (t : Table max) (key : CString) : Option CString :=
  (t.entries.find? (·.key = key)).map Entry.val

/-- The entries with the value of one key replaced. -/
def replaced (e : Entry) (l : List Entry) : List Entry :=
  l.map fun x => if x.key = e.key then e else x

theorem map_key_replaced (e : Entry) (l : List Entry) :
    (replaced e l).map Entry.key = l.map Entry.key := by
  rw [replaced, List.map_map]
  apply List.map_congr_left
  intro x _
  simp only [Function.comp]
  split
  · exact (by assumption : x.key = e.key).symm
  · rfl

/-- An entry is put in place of the one with its key, or behind the others while there is room. -/
def put (t : Table max) (e : Entry) : Option (Table max) :=
  if known : e.key ∈ t.entries.map Entry.key then
    some ⟨replaced e t.entries, by rw [map_key_replaced]; exact t.distinct,
      by simpa [replaced] using t.bounded⟩
  else if room : t.entries.length < max then
    some ⟨t.entries ++ [e], by
        rw [List.map_append]
        exact List.nodup_append.mpr ⟨t.distinct, by simp, by
          intro a ha b hb
          obtain rfl : b = e.key := by simpa using hb
          rintro rfl
          exact known ha⟩,
      by simpa using room⟩
  else none

end Table

/-- The registry: the device's table, the user's table, whether each changed since it was saved, and
the user whose table that is, or the empty name. -/
structure Registry where
  dev : Table regMax
  dirty : Bool
  usr : Table regUserMax
  usrDirty : Bool
  scope : CString

/-- `reg_is_user_key`: the keys that start with `User.`. -/
def regIsUserKey (key : CString) : Bool := [0x55, 0x73, 0x65, 0x72, 0x2E].isPrefixOf key.bytes

namespace Registry

/-- Whether someone is signed in. -/
def active (r : Registry) : Bool := !r.scope.bytes.isEmpty

/-- `scoped`: the signed-in user's value of a user's key. -/
def scopedVal (r : Registry) (key : CString) : Option CString :=
  if r.active && regIsUserKey key then r.usr.lookup key else none

/-- `reg_get`. -/
def regGet (r : Registry) (key : CString) (default : Option CString) : Option CString :=
  match r.scopedVal key with
  | some v => some v
  | none => (r.dev.lookup key).or default

/-- `device_put`. -/
def devicePut (r : Registry) (e : Entry) : Bool × Registry :=
  match r.dev.put e with
  | none => (false, r)
  | some dev => (true, { r with dev, dirty := true })

/-- The entry of a key and a value, when both fit. -/
def entryOf (key val : CString) : Option Entry :=
  if h : key.bytes.length < regKeyMax ∧ val.bytes.length < regValMax then
    some ⟨key, val, h.1, h.2⟩
  else none

/-- `reg_set`. -/
def regSet (key val : CString) (r : Registry) : Bool × Registry :=
  match entryOf key val with
  | none => (false, r)
  | some e =>
    if regIsUserKey key then
      if !r.active then (false, r)
      else
        match r.usr.put e with
        | none => (false, r)
        | some usr => (true, { r with usr, usrDirty := true })
    else r.devicePut e

/-! ### Text -/

/-- A line of a file, as far as the line buffer of the loaders holds it, read as `key=value`. -/
def parseLine (raw : List UInt8) : Option (CString × CString) :=
  let line := cstr (raw.take (regKeyMax + regValMax + 1))
  if line = [] ∨ line.head? = some hash then none
  else (cutAt equals line).map fun (key, val) => (CString.ofBuffer key, CString.ofBuffer val)

/-- What one line adds to a table: an entry, unless it does not fit its arrays or the table. -/
def loadLine {max : Nat} (t : Table max) (pair : CString × CString) : Table max :=
  match entryOf pair.1 pair.2 with
  | none => t
  | some e => (t.put e).getD t

/-- The loop of `reg_load`. -/
def loadLines (t : Table regMax) : List (List UInt8) → Table regMax
  | [] => t
  | raw :: rest =>
    match parseLine raw with
    | none => loadLines t rest
    | some pair => loadLines (loadLine t pair) rest

/-- `reg_load`. -/
def regLoad (text : List UInt8) (r : Registry) : Registry :=
  { r with dev := loadLines .empty (splitLines newline text), dirty := false }

/-- The loop of `reg_scope_load`: keys that are not a user's are passed over, and a full table ends
it. -/
def scopeLines (t : Table regUserMax) : List (List UInt8) → Table regUserMax
  | [] => t
  | raw :: rest =>
    match parseLine raw with
    | none => scopeLines t rest
    | some pair =>
      if !regIsUserKey pair.1 then scopeLines t rest
      else if regUserMax ≤ t.entries.length then t
      else scopeLines (loadLine t pair) rest

/-- `reg_scope_load`. -/
def regScopeLoad (text : List UInt8) (r : Registry) : Registry :=
  { r with usr := scopeLines .empty (splitLines newline text), usrDirty := false }

/-- The line of an entry, without its line end. -/
def entryLine (e : Entry) : List UInt8 := e.key.bytes ++ equals :: e.val.bytes

/-- The text of a table. -/
def tableText {max : Nat} (t : Table max) : List UInt8 :=
  unlines newline (t.entries.map entryLine)

end Registry

/-- The loop of the serialisers: the lines that fit a buffer of `cap` bytes, and how many bytes all of
them take. -/
def serializeFrom (cap : Nat) (out : List UInt8) (need : Nat) :
    List (List UInt8) → List UInt8 × Nat
  | [] => (out, need)
  | line :: rest =>
    serializeFrom cap (if need + (line.length + 1) < cap then out ++ line ++ [newline] else out)
      (need + (line.length + 1)) rest

/-- With room for everything and the NUL, a serialiser writes every line. -/
theorem serializeFrom_eq (cap : Nat) (out : List UInt8) (lines : List (List UInt8))
    (room : out.length + (unlines newline lines).length < cap) :
    serializeFrom cap out out.length lines =
      (out ++ unlines newline lines, out.length + (unlines newline lines).length) := by
  induction lines generalizing out with
  | nil => simp [serializeFrom]
  | cons line lines ih =>
    rw [unlines_cons, List.length_append, List.length_cons] at room
    have next : out.length + (line.length + 1) = (out ++ line ++ [newline]).length := by simp
    rw [serializeFrom, if_pos (by omega), next, ih _ (by simp; omega)]
    simp
    omega

theorem serializeFrom_need (cap : Nat) (out : List UInt8) (need : Nat) (lines : List (List UInt8)) :
    (serializeFrom cap out need lines).2 = need + (unlines newline lines).length := by
  induction lines generalizing out need with
  | nil => simp [serializeFrom]
  | cons line lines ih =>
    rw [serializeFrom, ih, unlines_cons, List.length_append, List.length_cons]
    omega

namespace Registry

/-- `reg_serialize` into a buffer of `cap` bytes: the text in the buffer and the length that the
whole text takes. -/
def regSerialize (cap : Nat) (r : Registry) : List UInt8 × Nat :=
  serializeFrom cap [] 0 (r.dev.entries.map entryLine)

/-- `reg_scope_serialize`. -/
def regScopeSerialize (cap : Nat) (r : Registry) : List UInt8 × Nat :=
  serializeFrom cap [] 0 (r.usr.entries.map entryLine)

/-- `reg_scope_set`. -/
def regScopeSet (user : CString) (r : Registry) : Registry :=
  { r with scope := CString.ofBuffer (user.bytes.take (usrScopeMax - 1)) }

/-- `reg_scope_clear`. -/
def regScopeClear (r : Registry) : Registry :=
  { r with usr := .empty, usrDirty := false, scope := ⟨[], by simp⟩ }

/-- A registry with nothing in it and nobody signed in. -/
def fresh : Registry where
  dev := .empty
  dirty := false
  usr := .empty
  usrDirty := false
  scope := ⟨[], by simp⟩

end Registry

/-! ### Tables -/

namespace Table

variable {max : Nat}

theorem mem_of_lookup {t : Table max} {key val : CString} (h : t.lookup key = some val) :
    ∃ e ∈ t.entries, e.key = key ∧ e.val = val := by
  obtain ⟨e, he, rfl⟩ := Option.map_eq_some_iff.mp h
  exact ⟨e, List.mem_of_find?_eq_some he, by simpa using List.find?_some he, rfl⟩

/-- Every entry of a table is what its key finds. -/
theorem lookup_of_mem {t : Table max} {e : Entry} (h : e ∈ t.entries) :
    t.lookup e.key = some e.val := by
  have distinct := t.distinct
  obtain ⟨a, b, hab⟩ := List.append_of_mem h
  have first : t.entries.find? (·.key = e.key) = some e := by
    rw [hab, List.map_append, List.map_cons] at distinct
    have notA := (List.nodup_append.mp distinct).2.2
    rw [hab, List.find?_append, List.find?_eq_none.mpr, Option.none_or, List.find?_cons_of_pos]
    · simp
    · intro x hx
      have := notA x.key (List.mem_map_of_mem hx) e.key (by simp)
      simpa using this
  rw [lookup, first]
  rfl

theorem mem_put {t t' : Table max} {e x : Entry} (h : t.put e = some t') (hx : x ∈ t'.entries) :
    x = e ∨ x ∈ t.entries := by
  unfold put at h
  split at h
  · obtain rfl := Option.some.inj h
    obtain ⟨y, hy, rfl⟩ := List.mem_map.mp hx
    split
    · exact .inl rfl
    · exact .inr hy
  · split at h
    · obtain rfl := Option.some.inj h
      rcases List.mem_append.mp hx with hx | hx
      · exact .inr hx
      · exact .inl (List.mem_singleton.mp hx)
    · cases h

theorem find?_replaced (e : Entry) (key : CString) (l : List Entry)
    (known : e.key ∈ l.map Entry.key) :
    (replaced e l).find? (·.key = key) =
      if key = e.key then some e else l.find? (·.key = key) := by
  induction l with
  | nil => cases known
  | cons x rest ih =>
    rw [replaced, List.map_cons, ← replaced]
    by_cases hx : x.key = e.key
    · rw [if_pos hx]
      by_cases hk : key = e.key
      · rw [if_pos hk, List.find?_cons_of_pos (by simp [hk])]
      · rw [if_neg hk, List.find?_cons_of_neg (by simpa using Ne.symm hk),
          List.find?_cons_of_neg (by simpa [hx] using Ne.symm hk)]
        -- the other entries with the key of `e` are not what is looked for either
        clear ih known
        induction rest with
        | nil => rfl
        | cons y rest ih =>
          rw [replaced, List.map_cons, ← replaced]
          by_cases hy : y.key = e.key
          · rw [if_pos hy, List.find?_cons_of_neg (by simpa using Ne.symm hk),
              List.find?_cons_of_neg (by simpa [hy] using Ne.symm hk), ih]
          · rw [if_neg hy, List.find?_cons, List.find?_cons, ih]
    · rw [if_neg hx]
      have more : e.key ∈ rest.map Entry.key := by
        rw [List.map_cons, List.mem_cons] at known
        exact known.resolve_left (Ne.symm hx)
      by_cases hk : key = e.key
      · rw [if_pos hk, List.find?_cons_of_neg (by simpa [hk] using hx), ih more, if_pos hk]
      · rw [if_neg hk, List.find?_cons, List.find?_cons, ih more, if_neg hk]

/-- After an entry was put, its key finds its value and the others find what they found. -/
theorem lookup_put {t t' : Table max} {e : Entry} (h : t.put e = some t') (key : CString) :
    t'.lookup key = if key = e.key then some e.val else t.lookup key := by
  unfold put at h
  split at h
  · rename_i known
    obtain rfl := Option.some.inj h
    simp only [lookup]
    rw [find?_replaced e key t.entries known]
    split
    · rfl
    · rfl
  · rename_i new
    split at h
    · obtain rfl := Option.some.inj h
      simp only [lookup]
      rw [List.find?_append]
      by_cases hk : key = e.key
      · have none : t.entries.find? (·.key = key) = none := by
          rw [List.find?_eq_none]
          intro x hx
          have : x.key ≠ e.key := fun h => new (h ▸ List.mem_map_of_mem hx)
          simpa [hk] using this
        rw [if_pos hk, none, Option.none_or, List.find?_cons_of_pos (by simp [hk])]
        rfl
      · rw [if_neg hk, List.find?_cons_of_neg (by simpa using Ne.symm hk), List.find?_nil,
          Option.or_none]
    · cases h

/-- A new key goes behind the others. -/
theorem put_new {t : Table max} {e : Entry} (new : e.key ∉ t.entries.map Entry.key)
    (room : t.entries.length < max) :
    ∃ t', t.put e = some t' ∧ t'.entries = t.entries ++ [e] := by
  unfold put
  rw [dif_neg new, dif_pos room]
  exact ⟨_, rfl, rfl⟩

end Table

end RPCortex.Settings
