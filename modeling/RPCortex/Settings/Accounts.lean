import RPCortex.Settings.Users
import RPCortex.Lib.Run

/-! The operations on the accounts table, `users.cpp`, and what they keep: who is let in without a
password, and whether the table comes back from its text.  The digest and the random salts are the
outside's. -/

namespace RPCortex.Settings

open Lib

namespace Users

/-- `NOPASS`. -/
def nopassCred : CString := ⟨ascii "NOPASS", by decide⟩

abbrev dollar : UInt8 := 0x24

/-! ### Credentials -/

def hexChar (d : UInt8) : UInt8 := if d < 10 then 0x30 + d else 0x57 + d

/-- `hex_encode`. -/
def hexEncode (bytes : List UInt8) : List UInt8 :=
  bytes.flatMap fun b => [hexChar (b / 16), hexChar (b % 16)]

/-- `hexval`. -/
def hexval (c : UInt8) : Option UInt8 :=
  if 0x30 ≤ c ∧ c ≤ 0x39 then some (c - 0x30)
  else if 0x61 ≤ c ∧ c ≤ 0x66 then some (c - 0x61 + 10)
  else if 0x41 ≤ c ∧ c ≤ 0x46 then some (c - 0x41 + 10)
  else none

/-- The loop of `users_verify` that reads the salt. -/
def hexDecode : List UInt8 → Option (List UInt8)
  | hi :: lo :: rest =>
    match hexval hi, hexval lo, hexDecode rest with
    | some hi, some lo, some bytes => some ((hi * 16 + lo) :: bytes)
    | _, _, _ => none
  | _ => some []

/-- Four words of `rpc_rand32`. -/
abbrev Salt := Vector UInt32 4

/-- The salt of `make_cred`. -/
def saltBytes (salt : Salt) : List UInt8 := salt.toList.flatMap fun r => leEncode 4 r.toNat

theorem hexChar_plain (b : UInt8) : hexChar (b / 16) ∉ [0, comma, newline] ∧
    hexChar (b % 16) ∉ [0, comma, newline] := by
  revert b
  decide +kernel

theorem notMem_hexEncode {c : UInt8} (h : c ∈ [0, comma, newline]) (bytes : List UInt8) :
    c ∉ hexEncode bytes := by
  intro hc
  obtain ⟨b, -, hb⟩ := List.mem_flatMap.mp hc
  obtain ⟨hi, lo⟩ := hexChar_plain b
  rcases List.mem_pair.mp hb with rfl | rfl
  · exact hi h
  · exact lo h

theorem length_hexEncode (bytes : List UInt8) : (hexEncode bytes).length = 2 * bytes.length := by
  induction bytes with
  | nil => rfl
  | cons b bytes ih =>
    rw [hexEncode, List.flatMap_cons, List.length_append, ← hexEncode, ih, List.length_cons]
    show 2 + 2 * bytes.length = 2 * (bytes.length + 1)
    omega

theorem length_saltBytes (salt : Salt) : (saltBytes salt).length = 16 := by
  simp [saltBytes, List.length_flatMap]

section Operations

variable (sha256 : List UInt8 → Vector UInt8 32)

/-- `hash_password`. -/
def hashPassword (salt : List UInt8) (password : CString) : List UInt8 :=
  hexEncode (sha256 (salt ++ password.bytes)).toList

/-- The text of `make_cred`. -/
def credText (salt : Salt) (password : CString) : List UInt8 :=
  hexEncode (saltBytes salt) ++ dollar :: hashPassword sha256 (saltBytes salt) password

theorem notMem_credText {c : UInt8} (h : c ∈ [0, comma, newline]) (salt : Salt) (password : CString) :
    c ∉ credText sha256 salt password := by
  rw [credText, List.mem_append, List.mem_cons, not_or, not_or]
  refine ⟨notMem_hexEncode h _, ?_, notMem_hexEncode h _⟩
  rintro rfl
  exact absurd h (by decide)

/-- `make_cred`. -/
def makeCred (salt : Salt) (password : CString) : CString :=
  ⟨credText sha256 salt password, notMem_credText sha256 (by simp) salt password⟩

theorem length_makeCred (salt : Salt) (password : CString) :
    (makeCred sha256 salt password).bytes.length = 97 := by
  simp [makeCred, credText, hashPassword, length_hexEncode, length_saltBytes]

theorem makeCred_fits (salt : Salt) (password : CString) :
    (makeCred sha256 salt password).bytes.length < usrCredMax := by
  rw [length_makeCred]
  decide

theorem nopassCred_fits : nopassCred.bytes.length < usrCredMax := by decide

/-- `reg_note_home`. -/
def homeText (name : CString) : CString where
  bytes := ascii "/home/" ++ name.bytes ++ [0x2F]
  noNul := by
    simp only [List.mem_append, List.mem_singleton, not_or]
    exact ⟨⟨by decide, name.noNul⟩, by decide⟩

/-! ### Operations -/

/-- `find`. -/
def find (t : Users) (name : CString) : Option User := t.users.find? fun u => u.name = name

/-- The first account of a list that has the name is changed. -/
def change (name : CString) (f : User → User) : List User → List User
  | [] => []
  | u :: users => if u.name = name then f u :: users else u :: change name f users

theorem length_change (name : CString) (f : User → User) (l : List User) :
    (change name f l).length = l.length := by
  induction l with
  | nil => rfl
  | cons u l ih =>
    rw [change]
    split
    · rfl
    · rw [List.length_cons, List.length_cons, ih]

/-- A change of the first account with the name; the table is then to be saved. -/
def changed (t : Users) (name : CString) (f : User → User) : Users where
  users := change name f t.users
  bounded := by
    rw [length_change]
    exact t.bounded
  dirty := true

/-- `users_add`. -/
def usersAdd (t : Users) (name : CString) (password : Option CString) (admin nopass : Bool)
    (salt : Salt) : Bool × Users :=
  if fits : name.bytes.length < usrNameMax then
    if room : (t.find name).isNone ∧ t.users.length < usrMax then
      match nopass, password with
      | true, _ => (true, ⟨t.users ++ [{
          name := name
          cred := nopassCred
          home := homeText name
          role := if admin then .admin else .user
          name_fits := fits
          cred_fits := nopassCred_fits
          home_fits := home_fits fits }], added room.2, true⟩)
      | false, none => (false, t)
      | false, some password =>
        if password.bytes = [] then (false, t)
        else (true, ⟨t.users ++ [{
          name := name
          cred := makeCred sha256 salt password
          home := homeText name
          role := if admin then .admin else .user
          name_fits := fits
          cred_fits := makeCred_fits sha256 salt password
          home_fits := home_fits fits }], added room.2, true⟩)
    else (false, t)
  else (false, t)
where
  home_fits {name : CString} (h : name.bytes.length < usrNameMax) :
      (homeText name).bytes.length < usrHomeMax := by
    simp only [homeText, usrNameMax, usrHomeMax, List.length_append, List.length_singleton] at h ⊢
    have : (ascii "/home/").length = 6 := rfl
    omega
  added {u : User} (h : t.users.length < usrMax) : (t.users ++ [u]).length ≤ usrMax := by
    rw [List.length_append, List.length_singleton]
    omega

/-- `users_verify`. -/
def usersVerify (t : Users) (name : CString) (password : Option CString) : Bool :=
  match t.find name with
  | none => false
  | some u =>
    if u.cred = nopassCred then true
    else match password, cutAt dollar u.cred.bytes with
    | some password, some (salthex, have_) =>
      if salthex.length ≠ 32 then false
      else match hexDecode salthex with
      | none => false
      | some salt => have_.length = 64 && decide (hashPassword sha256 salt password = have_)
    | _, _ => false

/-- `users_set_password`. -/
def usersSetPassword (t : Users) (name : CString) (password : Option CString) (salt : Salt) :
    Bool × Users :=
  match t.find name, password with
  | some _, some password =>
    if password.bytes = [] then (false, t)
    else (true, t.changed name fun u => { u with
      cred := makeCred sha256 salt password
      cred_fits := makeCred_fits sha256 salt password })
  | _, _ => (false, t)

/-- `users_set_admin`. -/
def usersSetAdmin (t : Users) (name : CString) (admin : Bool) : Bool × Users :=
  match t.find name with
  | none => (false, t)
  | some _ =>
    if !admin ∧ name.bytes = ascii "root" then (false, t)
    else (true, t.changed name fun u => { u with role := if admin then .admin else .user })

/-- `users_set_nopass`. -/
def usersSetNopass (t : Users) (name : CString) : Bool × Users :=
  match t.find name with
  | none => (false, t)
  | some u =>
    if u.role = .admin then (false, t)
    else (true, t.changed name fun u => { u with cred := nopassCred, cred_fits := nopassCred_fits })

/-- `users_remove`. -/
def usersRemove (t : Users) (name : CString) : Bool × Users :=
  if name.bytes = ascii "root" ∨ name.bytes = ascii "guest" then (false, t)
  else match t.find name with
  | none => (false, t)
  | some _ => (true, {
      users := t.users.eraseP fun u => u.name = name
      bounded := (List.eraseP_sublist.length_le).trans t.bounded
      dirty := true })

/-- The text of the table, in a buffer as long as it takes. -/
def savedText (t : Users) : List UInt8 := (t.usersSerialize ((t.usersSerialize 0).2 + 1)).1

/-- A call of `users.h` that changes the table, or a save and a load of it. -/
inductive Op
  | add (name : CString) (password : Option CString) (admin nopass : Bool) (salt : Salt)
  | remove (name : CString)
  | setAdmin (name : CString) (admin : Bool)
  | setNopass (name : CString)
  | setPassword (name : CString) (password : Option CString) (salt : Salt)
  | reload

/-- The table after a call. -/
def step (t : Users) : Op → Option Users
  | .add name password admin nopass salt => some (t.usersAdd sha256 name password admin nopass salt).2
  | .remove name => some (t.usersRemove name).2
  | .setAdmin name admin => some (t.usersSetAdmin name admin).2
  | .setNopass name => some (t.usersSetNopass name).2
  | .setPassword name password salt => some (t.usersSetPassword sha256 name password salt).2
  | .reload => some (usersLoad (savedText t) t)

end Operations

variable {sha256 : List UInt8 → Vector UInt8 32} {t t' : Users} {name : CString} {u : User}

/-! ### What an account is -/

/-- What holds of every account that is made and kept under every change holds of the table. -/
theorem forall_change {P : User → Prop} {f : User → User} {l : List User} (h : ∀ u ∈ l, P u)
    (hf : ∀ u, l.find? (fun u => u.name = name) = some u → P (f u)) :
    ∀ u ∈ change name f l, P u := by
  induction l with
  | nil => exact h
  | cons x l ih =>
    rw [change]
    by_cases same : x.name = name
    · rw [if_pos same]
      intro u hu
      rcases List.mem_cons.mp hu with rfl | hu
      · exact hf x (by simp [same])
      · exact h u (List.mem_cons_of_mem _ hu)
    · rw [if_neg same]
      intro u hu
      rcases List.mem_cons.mp hu with rfl | hu
      · exact h _ List.mem_cons_self
      · refine ih (fun u hu => h u (List.mem_cons_of_mem _ hu)) (fun u found => hf u ?_) u hu
        rw [List.find?_cons_of_neg (by simpa using same)]
        exact found

theorem mem_of_find (h : t.find name = some u) : u ∈ t.users ∧ u.name = name :=
  ⟨List.mem_of_find?_eq_some h, by simpa using List.find?_some h⟩

/-- An account that `users_add` makes. -/
structure Made (sha256 : List UInt8 → Vector UInt8 32) (name : CString) (admin nopass : Bool)
    (u : User) : Prop where
  named : u.name = name
  home : u.home = homeText name
  cred : (nopass = true ∧ u.cred = nopassCred) ∨
    nopass = false ∧ ∃ salt password, u.cred = makeCred sha256 salt password
  role : u.role = if admin then .admin else .user

theorem usersAdd_cases (sha256 : List UInt8 → Vector UInt8 32) (t : Users) (name : CString)
    (password : Option CString) (admin nopass : Bool) (salt : Salt) :
    (t.usersAdd sha256 name password admin nopass salt).2 = t ∨
      ∃ u, Made sha256 name admin nopass u ∧
        (t.usersAdd sha256 name password admin nopass salt).2.users = t.users ++ [u] := by
  unfold usersAdd
  split
  · split
    · split
      · exact Or.inr ⟨_, ⟨rfl, rfl, Or.inl ⟨rfl, rfl⟩, rfl⟩, rfl⟩
      · exact Or.inl rfl
      · split
        · exact Or.inl rfl
        · exact Or.inr ⟨_, ⟨rfl, rfl, Or.inr ⟨rfl, _, _, rfl⟩, rfl⟩, rfl⟩
    · exact Or.inl rfl
  · exact Or.inl rfl

/-- What a property of accounts has to bear so that a call keeps it: the account that is added, the
new password, role or `NOPASS` of an account that is found, and what a load makes of the text. -/
structure Bears (sha256 : List UInt8 → Vector UInt8 32) (P : User → Prop) (t : Users) (op : Op) :
    Prop where
  add : ∀ name password admin nopass salt u, op = .add name password admin nopass salt →
    Made sha256 name admin nopass u → P u
  setPassword : ∀ name password salt u fits, op = .setPassword name (some password) salt →
    t.find name = some u → P { u with cred := makeCred sha256 salt password, cred_fits := fits }
  setAdmin : ∀ name admin u, op = .setAdmin name admin → t.find name = some u →
    P { u with role := if admin then .admin else .user }
  setNopass : ∀ name u fits, op = .setNopass name → t.find name = some u → u.role ≠ .admin →
    P { u with cred := nopassCred, cred_fits := fits }
  reload : op = .reload → ∀ u ∈ (usersLoad (savedText t) t).users, P u

theorem forall_step {P : User → Prop} {op : Op} (h : ∀ u ∈ t.users, P u) (bears : Bears sha256 P t op)
    (taken : step sha256 t op = some t') : ∀ u ∈ t'.users, P u := by
  cases op with
  | add name password admin nopass salt =>
    obtain rfl := Option.some.inj taken
    rcases usersAdd_cases sha256 t name password admin nopass salt with same | ⟨u, made, users⟩
    · rw [same]
      exact h
    · rw [users]
      intro x hx
      rcases List.mem_append.mp hx with hx | hx
      · exact h x hx
      · rw [List.mem_singleton.mp hx]
        exact bears.add name password admin nopass salt u rfl made
  | remove name =>
    obtain rfl := Option.some.inj taken
    unfold usersRemove
    split
    · exact h
    · split
      · exact h
      · exact fun u hu => h u (List.mem_of_mem_eraseP hu)
  | setAdmin name admin =>
    obtain rfl := Option.some.inj taken
    unfold usersSetAdmin
    split
    · exact h
    · split
      · exact h
      · exact forall_change h fun u found => bears.setAdmin name admin u rfl found
  | setNopass name =>
    obtain rfl := Option.some.inj taken
    unfold usersSetNopass
    split
    · exact h
    · rename_i u found
      split
      · exact h
      · rename_i plain
        refine forall_change h fun x found' => ?_
        obtain rfl : x = u := Option.some.inj (found'.symm.trans found)
        exact bears.setNopass name x _ rfl found plain
  | setPassword name password salt =>
    obtain rfl := Option.some.inj taken
    unfold usersSetPassword
    split
    · split
      · exact h
      · exact forall_change h fun u found => bears.setPassword name _ salt u _ rfl found
    · exact h
  | reload =>
    obtain rfl := Option.some.inj taken
    exact bears.reload rfl

theorem savedText_eq (t : Users) : savedText t = usersText t.users := by
  have need : (t.usersSerialize 0).2 = (usersText t.users).length := by
    rw [usersSerialize, serializeFrom_need, Nat.zero_add]
    rfl
  have whole := serializeFrom_eq ((t.usersSerialize 0).2 + 1) [] (t.users.map userLine)
    (by rw [need]; simp [usersText])
  exact congrArg Prod.fst whole

/-! ### No administrator without a password -/

/-- A name without the separators of the file. -/
def Separate (name : CString) : Prop := comma ∉ name.bytes ∧ newline ∉ name.bytes

instance : DecidablePred Separate := fun _ => inferInstanceAs (Decidable (_ ∧ _))

/-- No account is an administrator whom every password lets in. -/
def Guarded (t : Users) : Prop := ∀ u ∈ t.users, ¬(u.role = .admin ∧ u.cred = nopassCred)

/-- A call that does not make an account both, and does not bring separators into a name. -/
def Careful (t : Users) : Op → Prop
  | .add name _ admin nopass _ => ¬(admin = true ∧ nopass = true) ∧ Separate name
  | .setAdmin name admin => admin = true → ∀ u ∈ t.find name, u.cred ≠ nopassCred
  | _ => True

instance : ∀ t op, Decidable (Careful t op)
  | _, .add .. => inferInstanceAs (Decidable (_ ∧ _))
  | _, .setAdmin .. => inferInstanceAs (Decidable (_ → _))
  | _, .remove _ => .isTrue trivial
  | _, .setNopass _ => .isTrue trivial
  | _, .setPassword .. => .isTrue trivial
  | _, .reload => .isTrue trivial

/-- The invariant of the accounts: their strings keep clear of the separators. -/
structure Sound (u : User) : Prop where
  name : Separate u.name
  cred : comma ∉ u.cred.bytes ∧ newline ∉ u.cred.bytes
  home : comma ∉ u.home.bytes ∧ newline ∉ u.home.bytes
  guarded : ¬(u.role = .admin ∧ u.cred = nopassCred)

theorem separate_homeText {name : CString} (h : Separate name) :
    comma ∉ (homeText name).bytes ∧ newline ∉ (homeText name).bytes := by
  simp only [homeText, List.mem_append, List.mem_singleton, not_or]
  exact ⟨⟨⟨by decide, h.1⟩, by decide⟩, ⟨⟨by decide, h.2⟩, by decide⟩⟩

theorem separate_makeCred {salt : Salt} {password : CString} :
    comma ∉ (makeCred sha256 salt password).bytes ∧ newline ∉ (makeCred sha256 salt password).bytes :=
  ⟨notMem_credText sha256 (by simp) salt password, notMem_credText sha256 (by simp) salt password⟩

theorem separate_nopassCred : comma ∉ nopassCred.bytes ∧ newline ∉ nopassCred.bytes := by decide

/-- A salted digest is not the word `NOPASS`. -/
theorem makeCred_ne {salt : Salt} {password : CString} :
    makeCred sha256 salt password ≠ nopassCred := by
  intro same
  have len := length_makeCred sha256 salt password
  rw [same] at len
  exact absurd len (by decide)

/-- The line of an account reads as the account or, when it looks like a comment, not at all. -/
theorem parseUser_sound (h : Sound u) : parseUser (userLine u) = some u ∨ parseUser (userLine u) = none := by
  by_cases comment : u.name.bytes.head? = some hash
  · refine Or.inr ?_
    obtain ⟨rest, name⟩ : ∃ rest, u.name.bytes = hash :: rest := by
      cases hn : u.name.bytes with
      | nil => rw [hn] at comment; cases comment
      | cons c rest =>
        rw [hn] at comment
        exact ⟨rest, by rw [Option.some.inj comment]⟩
    have line : (cstr ((userLine u).take (usrNameMax + usrCredMax + usrHomeMax + 15))).head? =
        some hash := by
      rw [userLine, name]
      rfl
    simp only [parseUser]
    rw [if_pos (Or.inr line)]
  · exact Or.inl (parseUser_userLine ⟨h.name.1, h.cred.1, h.home.1,
      ⟨h.name.2, h.cred.2, h.home.2⟩, comment⟩)

theorem mem_loadLines {l : List User} (sound : ∀ u ∈ l, Sound u) (users : List User) :
    ∀ u ∈ loadLines users (l.map userLine), u ∈ users ∨ u ∈ l := by
  induction l generalizing users with
  | nil => exact fun u hu => Or.inl hu
  | cons x l ih =>
    have rest := ih fun u hu => sound u (List.mem_cons_of_mem _ hu)
    intro u hu
    rw [List.map_cons, loadLines] at hu
    split at hu
    · exact Or.inl hu
    rcases parseUser_sound (sound x List.mem_cons_self) with read | skipped
    · rw [read] at hu
      rcases rest _ u hu with hu | hu
      · rcases List.mem_append.mp hu with hu | hu
        · exact Or.inl hu
        · rw [List.mem_singleton.mp hu]
          exact Or.inr List.mem_cons_self
      · exact Or.inr (List.mem_cons_of_mem _ hu)
    · rw [skipped] at hu
      rcases rest _ u hu with hu | hu
      · exact Or.inl hu
      · exact Or.inr (List.mem_cons_of_mem _ hu)

theorem Sound.reload (sound : ∀ u ∈ t.users, Sound u) :
    ∀ u ∈ (usersLoad (savedText t) t).users, Sound u := by
  intro u hu
  rw [savedText_eq] at hu
  simp only [usersLoad, usersText] at hu
  rw [splitLines_unlines] at hu
  · rcases mem_loadLines sound [] u hu with no | mem
    · cases no
    · exact sound u mem
  · intro line hline
    obtain ⟨x, hx, rfl⟩ := List.mem_map.mp hline
    obtain ⟨name, cred, home, -⟩ := sound x hx
    simp only [userLine, List.mem_append, List.mem_cons, not_or]
    exact ⟨name.2, by decide, cred.2, by decide, home.2, by decide, (notMem_roleName x.role).2.2⟩

theorem Sound.bears (sound : ∀ u ∈ t.users, Sound u) {op : Op} (careful : Careful t op) :
    Bears sha256 Sound t op where
  add := by
    rintro name password admin nopass salt u rfl ⟨named, home, cred, role⟩
    obtain ⟨apart, separate⟩ := careful
    refine ⟨named ▸ separate, ?_, home ▸ separate_homeText separate, ?_⟩
    · rcases cred with ⟨-, cred⟩ | ⟨-, salt, password, cred⟩
      · rw [cred]
        exact separate_nopassCred
      · rw [cred]
        exact separate_makeCred
    · rintro ⟨isAdmin, isNopass⟩
      rcases cred with ⟨nopass, -⟩ | ⟨-, salt, password, cred⟩
      · refine apart ⟨?_, nopass⟩
        by_contra no
        rw [role, if_neg no] at isAdmin
        cases isAdmin
      · exact makeCred_ne (cred.symm.trans isNopass)
  setPassword := by
    rintro name password salt u fits rfl found
    have was := sound u (mem_of_find found).1
    exact ⟨was.name, separate_makeCred, was.home, fun both => makeCred_ne both.2⟩
  setAdmin := by
    rintro name admin u rfl found
    have was := sound u (mem_of_find found).1
    refine ⟨was.name, was.cred, was.home, ?_⟩
    rintro ⟨isAdmin, isNopass⟩
    by_cases on : admin = true
    · exact careful on u found isNopass
    · simp only [if_neg on] at isAdmin
      cases isAdmin
  setNopass := by
    rintro name u fits rfl found plain
    have was := sound u (mem_of_find found).1
    exact ⟨was.name, separate_nopassCred, was.home, fun both => plain both.1⟩
  reload := fun _ => Sound.reload sound

/-- In a run of careful calls no administrator goes without a password. -/
theorem guarded_of_run (run : Run (step sha256) Careful Users.empty t) : Guarded t := by
  have sound : ∀ u ∈ t.users, Sound u :=
    run.invariant (P := fun t => ∀ u ∈ t.users, Sound u) (fun u no => nomatch no)
      fun s op t h careful taken => forall_step h (Sound.bears h careful) taken
  exact fun u hu => (sound u hu).guarded

/-- Two guests. -/
def guest : CString := ⟨ascii "guest", by decide⟩

def visitor : CString := ⟨ascii "visitor", by decide⟩

/-- A digest that the calls below do not ask for. -/
def noDigest : List UInt8 → Vector UInt8 32 := fun _ => Vector.replicate 32 0

def noSalt : Salt := Vector.replicate 4 0

/-- They are added, one is demoted, and the table is saved and loaded. -/
def guestCalls : List Op :=
  [.add guest none false true noSalt, .add visitor none false true noSalt, .setAdmin visitor false,
    .setNopass guest, .reload]

theorem guarded_of_run_guests :
    Guarded ((exec (step noDigest) Users.empty guestCalls).get (by decide +kernel)) :=
  guarded_of_run (.of_exec_get _ (by decide +kernel))

/-- An account that is added as both. -/
theorem not_all_runs_guarded : ¬∀ sha256 t, Run (step sha256) (fun _ _ => True) Users.empty t →
    Guarded t := by
  intro all
  have guarded := all noDigest _ (.tail (a := .add guest none true true noSalt) .refl trivial rfl :
    Run (step noDigest) (fun _ _ => True) Users.empty
      (usersAdd noDigest Users.empty guest none true true noSalt).2)
  have users : (usersAdd noDigest Users.empty guest none true true noSalt).2.users.map
      (fun u => (u.role, u.cred)) = [(.admin, nopassCred)] := by decide +kernel
  obtain ⟨u, hu, both⟩ := List.mem_map.mp (users ▸ List.mem_singleton_self _ :
    (UserRole.admin, nopassCred) ∈ (usersAdd noDigest Users.empty guest none true true
      noSalt).2.users.map fun u => (u.role, u.cred))
  exact guarded u hu ⟨congrArg Prod.fst both, congrArg Prod.snd both⟩

/-! ### The table comes back from its text -/

/-- A load of the saved text into an empty table gives the same accounts, and they are verified
alike. -/
structure RoundTrips (sha256 : List UInt8 → Vector UInt8 32) (t : Users) : Prop where
  accounts : (usersLoad (savedText t) Users.empty).users = t.users
  verified : ∀ name password, (usersLoad (savedText t) Users.empty).usersVerify sha256 name password =
    t.usersVerify sha256 name password

/-- A call that edits the table. -/
def Edits : Users → Op → Prop
  | _, .reload => False
  | _, _ => True

instance : ∀ t op, Decidable (Edits t op)
  | _, .add .. => .isTrue trivial
  | _, .setAdmin .. => .isTrue trivial
  | _, .remove _ => .isTrue trivial
  | _, .setNopass _ => .isTrue trivial
  | _, .setPassword .. => .isTrue trivial
  | _, .reload => .isFalse id

/-- A name that the file gives back. -/
def Storable (name : CString) : Prop := Separate name ∧ name.bytes.head? ≠ some hash

/-- The parts of an account that the calls make themselves. -/
structure Shaped (u : User) : Prop where
  cred : comma ∉ u.cred.bytes ∧ newline ∉ u.cred.bytes
  home : u.home = homeText u.name

theorem Shaped.bears (shaped : ∀ u ∈ t.users, Shaped u) {op : Op} (edits : Edits t op) :
    Bears sha256 Shaped t op where
  add := by
    rintro name password admin nopass salt u rfl ⟨named, home, cred, -⟩
    refine ⟨?_, home.trans (by rw [named])⟩
    rcases cred with ⟨-, cred⟩ | ⟨-, salt, password, cred⟩
    · rw [cred]
      exact separate_nopassCred
    · rw [cred]
      exact separate_makeCred
  setPassword := by
    rintro name password salt u fits rfl found
    exact ⟨separate_makeCred, (shaped u (mem_of_find found).1).home⟩
  setAdmin := by
    rintro name admin u rfl found
    exact ⟨(shaped u (mem_of_find found).1).cred, (shaped u (mem_of_find found).1).home⟩
  setNopass := by
    rintro name u fits rfl found -
    exact ⟨separate_nopassCred, (shaped u (mem_of_find found).1).home⟩
  reload := by
    rintro rfl
    exact absurd edits id

theorem Shaped.clean_iff (shaped : Shaped u) : Clean u ↔ Storable u.name := by
  constructor
  · intro clean
    exact ⟨⟨clean.name_comma, clean.newline.1⟩, clean.name_hash⟩
  · rintro ⟨separate, start⟩
    obtain ⟨comma, newline⟩ := separate_homeText separate
    rw [← shaped.home] at comma newline
    exact ⟨separate.1, shaped.cred.1, comma, ⟨separate.2, shaped.cred.2, newline⟩, start⟩

/-- A table that was edited by calls comes back from its text exactly when every name does. -/
theorem roundTrips_iff (run : Run (step sha256) Edits Users.empty t) :
    RoundTrips sha256 t ↔ ∀ u ∈ t.users, Storable u.name := by
  have shaped : ∀ u ∈ t.users, Shaped u :=
    run.invariant (P := fun t => ∀ u ∈ t.users, Shaped u) (fun u no => nomatch no)
      fun s op t h edits taken => forall_step h (Shaped.bears h edits) taken
  constructor
  · rintro ⟨accounts, -⟩ u hu
    refine (shaped u hu).clean_iff.mp (usersLoad_clean (savedText t) Users.empty u ?_)
    rw [accounts]
    exact hu
  · intro storable
    have accounts : (usersLoad (savedText t) Users.empty).users = t.users := by
      rw [savedText_eq]
      exact usersLoad_usersText (fun u hu => (shaped u hu).clean_iff.mpr (storable u hu)) t.bounded _
    refine ⟨accounts, fun name password => ?_⟩
    rw [usersVerify, usersVerify, find, find, accounts]

theorem roundTrips_iff_guests : ∃ t, t.users.map User.name = [guest, visitor] ∧
    (RoundTrips noDigest t ↔ ∀ u ∈ t.users, Storable u.name) :=
  ⟨(exec (step noDigest) Users.empty (guestCalls.take 4)).get (by decide +kernel), by decide +kernel,
    roundTrips_iff (.of_exec_get _ (by decide +kernel))⟩

def pairName : CString := ⟨ascii "a,b", by decide⟩

/-- A name with a comma ends early in the file. -/
theorem not_all_roundTrip :
    ¬∀ sha256 t, Run (step sha256) Edits Users.empty t → RoundTrips sha256 t := by
  intro all
  have back := (all noDigest _ (.tail (a := .add pairName none false true noSalt) .refl trivial rfl :
    Run (step noDigest) Edits Users.empty
      (usersAdd noDigest Users.empty pairName none false true noSalt).2)).accounts
  have names := congrArg (List.map User.name) back
  exact absurd names (by decide +kernel)

end Users

end RPCortex.Settings
