import RPCortex.Settings.Registry

/-! The accounts table of `users.cpp` as it is saved and loaded: lines `name,cred,home,role`. -/

namespace RPCortex.Settings

open Lib

/-- `USR_MAX`. -/
abbrev usrMax : Nat := 16

/-- `USR_NAME_MAX`. -/
abbrev usrNameMax : Nat := 24

/-- `USR_CRED_MAX`. -/
abbrev usrCredMax : Nat := 100

/-- `USR_HOME_MAX`. -/
abbrev usrHomeMax : Nat := 40

abbrev comma : UInt8 := 0x2C

/-- `UserRole`. -/
inductive UserRole
  | user
  | admin
  deriving DecidableEq

/-- `User`: its strings fit their arrays. -/
structure User where
  name : CString
  cred : CString
  home : CString
  role : UserRole
  name_fits : name.bytes.length < usrNameMax
  cred_fits : cred.bytes.length < usrCredMax
  home_fits : home.bytes.length < usrHomeMax
  deriving DecidableEq

/-- The accounts table. -/
structure Users where
  users : List User
  bounded : users.length ≤ usrMax
  dirty : Bool

namespace Users

/-- A table without accounts. -/
def empty : Users := ⟨[], Nat.zero_le _, false⟩

/-- The role that the last field of a line names; a line of three fields is from before there were
roles, and in it `root` is the admin. -/
def roleOf (name : List UInt8) : Option (List UInt8) → UserRole
  | some role => if role = ascii "admin" then .admin else .user
  | none => if name = ascii "root" then .admin else .user

/-- A line of the file, as far as the line buffer of `users_load` holds it, read as an account. -/
def parseUser (raw : List UInt8) : Option User :=
  let line := cstr (raw.take (usrNameMax + usrCredMax + usrHomeMax + 15))
  if line = [] ∨ line.head? = some hash then none
  else
    match cutAt comma line with
    | none => none
    | some (name, rest) =>
      match cutAt comma rest with
      | none => none
      | some (cred, rest) =>
        let (home, role) : List UInt8 × Option (List UInt8) :=
          match cutAt comma rest with
          | some (home, role) => (home, some role)
          | none => (rest, none)
        let name' := CString.ofBuffer name
        let cred := CString.ofBuffer cred
        let home := CString.ofBuffer home
        if fits : name'.bytes.length < usrNameMax ∧ cred.bytes.length < usrCredMax ∧
            home.bytes.length < usrHomeMax then
          some ⟨name', cred, home, roleOf name role, fits.1, fits.2.1, fits.2.2⟩
        else none

/-- The accounts of the lines of a file, behind those already there; a full table ends it. -/
def loadLines (users : List User) : List (List UInt8) → List User
  | [] => users
  | raw :: rest =>
    if usrMax ≤ users.length then users
    else
      match parseUser raw with
      | none => loadLines users rest
      | some u => loadLines (users ++ [u]) rest

theorem length_loadLines {users : List User} (h : users.length ≤ usrMax)
    (lines : List (List UInt8)) :
    (loadLines users lines).length ≤ usrMax := by
  induction lines generalizing users with
  | nil => exact h
  | cons raw rest ih =>
    simp only [loadLines]
    split
    · exact h
    · split
      · exact ih h
      · refine ih ?_
        rw [List.length_append, List.length_singleton]
        omega

/-- `users_load`. -/
def usersLoad (text : List UInt8) (_ : Users) : Users :=
  ⟨loadLines [] (splitLines newline text), length_loadLines (Nat.zero_le _) _, false⟩

/-- The last field of the line of an account. -/
def roleName : UserRole → List UInt8
  | .admin => ascii "admin"
  | .user => ascii "user"

/-- The line of an account, without its line end. -/
def userLine (u : User) : List UInt8 :=
  u.name.bytes ++ comma :: (u.cred.bytes ++ comma :: (u.home.bytes ++ comma :: roleName u.role))

/-- The text of a list of accounts. -/
def usersText (l : List User) : List UInt8 := unlines newline (l.map userLine)

/-- `users_serialize` into a buffer of `cap` bytes. -/
def usersSerialize (cap : Nat) (u : Users) : List UInt8 × Nat :=
  serializeFrom cap [] 0 (u.users.map userLine)

/-! ### What is loaded and what comes back -/

/-- The strings of the account keep clear of the characters that structure a line. -/
structure Clean (u : User) : Prop where
  name_comma : comma ∉ u.name.bytes
  cred_comma : comma ∉ u.cred.bytes
  home_comma : comma ∉ u.home.bytes
  newline : newline ∉ u.name.bytes ∧ newline ∉ u.cred.bytes ∧ newline ∉ u.home.bytes
  name_hash : u.name.bytes.head? ≠ some hash

theorem userLine_ne_nil (u : User) : userLine u ≠ [] := by simp [userLine]

theorem length_roleName (role : UserRole) : (roleName role).length ≤ 5 := by
  cases role <;> decide

theorem length_userLine_le (u : User) : (userLine u).length ≤ 169 := by
  have hname := u.name_fits
  have hcred := u.cred_fits
  have hhome := u.home_fits
  have hrole := length_roleName u.role
  simp only [usrNameMax, usrCredMax, usrHomeMax] at hname hcred hhome
  simp only [userLine, List.length_append, List.length_cons]
  omega

theorem notMem_roleName (role : UserRole) :
    0 ∉ roleName role ∧ comma ∉ roleName role ∧ Settings.newline ∉ roleName role := by
  cases role <;> decide

theorem zero_notMem_userLine (u : User) : 0 ∉ userLine u := by
  simp only [userLine, List.mem_append, List.mem_cons, not_or]
  exact ⟨u.name.noNul, by decide, u.cred.noNul, by decide, u.home.noNul, by decide,
    (notMem_roleName u.role).1⟩

theorem Clean.line {u : User} (h : Clean u) : Settings.newline ∉ userLine u := by
  simp only [userLine, List.mem_append, List.mem_cons, not_or]
  exact ⟨h.newline.1, by decide, h.newline.2.1, by decide, h.newline.2.2, by decide,
    (notMem_roleName u.role).2.2⟩

theorem roleOf_roleName (name : List UInt8) (role : UserRole) :
    roleOf name (some (roleName role)) = role := by
  cases role
  · rfl
  · rfl

/-- The line of a clean account reads as the account. -/
theorem parseUser_userLine {u : User} (h : Clean u) : parseUser (userLine u) = some u := by
  have whole : cstr ((userLine u).take (usrNameMax + usrCredMax + usrHomeMax + 15)) =
      userLine u := by
    have := length_userLine_le u
    rw [List.take_of_length_le (by simp only [usrNameMax, usrCredMax, usrHomeMax]; omega),
      cstr_of_notMem (zero_notMem_userLine u)]
  have start : (userLine u).head? ≠ some hash := by
    rw [userLine, List.head?_append]
    cases hn : u.name.bytes.head? with
    | none => simpa using (by decide : comma ≠ hash)
    | some c =>
      have := h.name_hash
      rw [hn] at this
      simpa using this
  simp only [parseUser, whole]
  rw [if_neg (not_or.mpr ⟨userLine_ne_nil u, start⟩), userLine]
  simp only [cutAt_append h.name_comma, cutAt_append h.cred_comma, cutAt_append h.home_comma,
    CString.ofBuffer_bytes, roleOf_roleName]
  rw [dif_pos ⟨u.name_fits, u.cred_fits, u.home_fits⟩]

/-- An account that is read from a line is clean. -/
theorem parseUser_clean {raw : List UInt8} {u : User} (line : Settings.newline ∉ raw)
    (hp : parseUser raw = some u) : Clean u := by
  simp only [parseUser] at hp
  split at hp
  · cases hp
  rename_i start
  rw [not_or] at start
  generalize hline : cstr (raw.take (usrNameMax + usrCredMax + usrHomeMax + 15)) = text at hp start
  have nul : 0 ∉ text := hline ▸ zero_notMem_cstr _
  have nl : Settings.newline ∉ text := by
    rw [← hline]
    exact fun hm => line (List.mem_of_mem_take ((List.takeWhile_sublist _).mem hm))
  cases hname : cutAt comma text with
  | none => rw [hname] at hp; cases hp
  | some cut =>
    obtain ⟨name, rest⟩ := cut
    obtain ⟨rfl, name_comma⟩ := of_cutAt hname
    simp only [hname] at hp
    cases hcred : cutAt comma rest with
    | none => rw [hcred] at hp; cases hp
    | some cut =>
      obtain ⟨cred, rest⟩ := cut
      obtain ⟨rfl, cred_comma⟩ := of_cutAt hcred
      simp only [hcred] at hp
      -- the home directory ends at the third separator or with the line
      obtain ⟨home, role, hhome, home_comma, sub⟩ : ∃ home role,
          (match cutAt comma rest with
            | some (home, role) => (home, some role)
            | none => (rest, none)) = (home, role) ∧ comma ∉ home ∧ ∀ b ∈ home, b ∈ rest := by
        cases hcut : cutAt comma rest with
        | none => exact ⟨rest, none, rfl, notMem_of_cutAt hcut, fun _ h => h⟩
        | some cut =>
          obtain ⟨home, role⟩ := cut
          obtain ⟨rfl, home_comma⟩ := of_cutAt hcut
          exact ⟨home, some role, rfl, home_comma, fun b h => by simp [h]⟩
      simp only [hhome] at hp
      simp only [List.mem_append, List.mem_cons, not_or] at nul nl
      have nameBytes : cstr name = name := cstr_of_notMem nul.1
      have credBytes : cstr cred = cred := cstr_of_notMem nul.2.2.1
      have homeBytes : cstr home = home := cstr_of_notMem fun h => nul.2.2.2.2 (sub _ h)
      split at hp
      · obtain rfl := Option.some.inj hp
        refine ⟨by simpa [CString.ofBuffer, nameBytes], by simpa [CString.ofBuffer, credBytes],
          by simpa [CString.ofBuffer, homeBytes], ?_, ?_⟩
        · simp only [CString.ofBuffer, nameBytes, credBytes, homeBytes]
          exact ⟨nl.1, nl.2.2.1, fun h => nl.2.2.2.2 (sub _ h)⟩
        · simp only [CString.ofBuffer, nameBytes]
          intro h
          apply start.2
          rw [List.head?_append, h]
          rfl
      · cases hp

theorem loadLines_clean {lines : List (List UInt8)} (h : ∀ line ∈ lines, Settings.newline ∉ line)
    (users : List User) : ∀ u ∈ loadLines users lines, Clean u ∨ u ∈ users := by
  induction lines generalizing users with
  | nil => exact fun u hu => .inr hu
  | cons raw rest ih =>
    have hrest := ih fun line hl => h line (by simp [hl])
    intro u hu
    simp only [loadLines] at hu
    split at hu
    · exact .inr hu
    · cases hp : parseUser raw with
      | none => rw [hp] at hu; exact hrest _ u hu
      | some x =>
        rw [hp] at hu
        rcases hrest _ u hu with hc | hu
        · exact .inl hc
        · rcases List.mem_append.mp hu with hu | hu
          · exact .inr hu
          · obtain rfl := List.mem_singleton.mp hu
            exact .inl (parseUser_clean (h raw (by simp)) hp)

/-- Everything that `users_load` puts in the table is clean. -/
theorem usersLoad_clean (text : List UInt8) (u : Users) :
    ∀ x ∈ (usersLoad text u).users, Clean x := by
  intro x hx
  rcases loadLines_clean (fun _ h => notMem_of_mem_splitLines h) [] x hx with h | h
  · exact h
  · cases h

/-- The lines of clean accounts, loaded behind others that leave room for them. -/
theorem loadLines_users {l : List User} (clean : ∀ u ∈ l, Clean u) (users : List User)
    (bounded : users.length + l.length ≤ usrMax) :
    loadLines users (l.map userLine) = users ++ l := by
  induction l generalizing users with
  | nil => simp [loadLines]
  | cons u rest ih =>
    rw [List.length_cons] at bounded
    rw [List.map_cons, loadLines, if_neg (by omega), parseUser_userLine (clean u (by simp))]
    simp only
    have more := ih (fun x hx => clean x (by simp [hx])) (users ++ [u])
      (by rw [List.length_append, List.length_singleton]; omega)
    rw [more, List.append_assoc, List.singleton_append]

/-- A table of clean accounts comes back from its text. -/
theorem usersLoad_usersText {l : List User} (clean : ∀ u ∈ l, Clean u) (bounded : l.length ≤ usrMax)
    (u : Users) : (usersLoad (usersText l) u).users = l := by
  simp only [usersLoad, usersText]
  rw [splitLines_unlines]
  · exact loadLines_users clean [] (by simpa using bounded)
  · intro line hline
    obtain ⟨x, hx, rfl⟩ := List.mem_map.mp hline
    exact (clean x hx).line

theorem length_usersText_le (l : List User) : (usersText l).length ≤ 170 * l.length := by
  induction l with
  | nil => simp [usersText]
  | cons u rest ih =>
    have := length_userLine_le u
    simp only [usersText, List.map_cons, unlines_cons, List.length_append, List.length_cons] at ih ⊢
    omega

end Users

end RPCortex.Settings
