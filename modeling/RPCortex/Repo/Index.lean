import RPCortex.Package.Index

/-! `repoindex.cpp`: the entries of a repository's index.  A text that ends at `end` is the list of the
bytes in front of it, and a pointer into it is what is left of the list. -/

namespace RPCortex.Repo

open Lib Package

abbrev Str : Type := List UInt8

abbrev quote : UInt8 := 0x22

abbrev backslash : UInt8 := 0x5C

/-- `RepoEntry`.  Its texts are what stands in front of their NULs. -/
structure RepoEntry where
  name : Str
  ver : Str
  desc : Str
  author : Str
  url : Str
  sha256 : Str
  abi : Str
  arch : Str
  kind : Str
  size : Nat
  deriving DecidableEq

/-- An entry before its fields are read. -/
def RepoEntry.blank : RepoEntry := ⟨[], [], [], [], [], [], [], [], [], 0⟩

/-- `REPO_NAME_MAX`, `REPO_VER_MAX`, `REPO_DESC_MAX`, `REPO_URL_MAX` and `REPO_HASH_MAX`. -/
def repoNameMax : Nat := 40
def repoVerMax : Nat := 16
def repoDescMax : Nat := 96
def repoUrlMax : Nat := 200
def repoHashMax : Nat := 65

/-- `ieq`. -/
def ieq (a b : Str) : Bool := a.map lower = b.map lower

/-- A string body with its escapes resolved. -/
def unescape : Str → Str
  | [] => []
  | [c] => [c]
  | c :: d :: s =>
    if c = backslash then
      (if d = 0x6E then 0x0A else if d = 0x74 then 0x09 else if d = 0x72 then 0x0D else d) :: unescape s
    else c :: unescape (d :: s)

/-- `copy_str` into a buffer of `cap` bytes, as the C string that is read from it. -/
def copyStr (src : Str) (cap : Nat) (mayTruncate : Bool) : Option Str :=
  if (unescape src).length < cap then some (cstr (unescape src))
  else if mayTruncate then some (cstr ((unescape src).take (cap - 1)))
  else none

/-- The body of a string behind its opening quote, and what stands behind its closing one. -/
def stringBody : Str → Option (Str × Str)
  | [] => none
  | [c] => if c = quote then some ([], []) else none
  | c :: d :: s =>
    if c = backslash then (stringBody s).map fun r => (c :: d :: r.1, r.2)
    else if c = quote then some ([], d :: s)
    else (stringBody (d :: s)).map fun r => (c :: r.1, r.2)

/-- `next_string`. -/
def nextString (p : Str) : Option (Str × Str) := stringBody ((p.dropWhile (· ≠ quote)).drop 1)

/-- The object that closes `depth` braces further on, and what stands behind it.  `inString` is set
between two quotes. -/
def objectBody : (depth : Nat) → (inString : Bool) → Str → Option (Str × Str)
  | _, _, [] => none
  | depth, true, c :: s =>
    if c = quote then (objectBody depth false s).map fun r => (c :: r.1, r.2)
    else if c = backslash then
      match s with
      | [] => none
      | d :: s => (objectBody depth true s).map fun r => (c :: d :: r.1, r.2)
    else (objectBody depth true s).map fun r => (c :: r.1, r.2)
  | depth, false, c :: s =>
    if c = quote then (objectBody depth true s).map fun r => (c :: r.1, r.2)
    else if c = 0x7B then (objectBody (depth + 1) false s).map fun r => (c :: r.1, r.2)
    else if c = 0x7D then
      if depth ≤ 1 then some ([], s)
      else (objectBody (depth - 1) false s).map fun r => (c :: r.1, r.2)
    else (objectBody depth false s).map fun r => (c :: r.1, r.2)

def isDigit (c : UInt8) : Bool := 0x30 ≤ c && c ≤ 0x39

/-- The digits in front of a text, as an unsigned number of 32 bits. -/
def sizeAt (s : Str) : Nat :=
  (s.takeWhile isDigit).foldl (fun v c => (v * 10 + (c.toNat - 0x30)) % 2 ^ 32) 0

/-- An entry so far, and whether a field did not fit. -/
abbrev Reading : Type := RepoEntry × Bool

/-- A field that must fit. -/
def put (r : Reading) (val : Str) (cap : Nat) (set : RepoEntry → Str → RepoEntry) : Reading :=
  match copyStr val cap false with
  | some s => (set r.1 s, r.2)
  | none => (r.1, true)

/-- A field that is cut where it does not fit. -/
def putCut (r : Reading) (val : Str) (cap : Nat) (set : RepoEntry → Str → RepoEntry) : Reading :=
  match copyStr val cap true with
  | some s => (set r.1 s, r.2)
  | none => r

/-- The field that a key names is set to a string. -/
def setField (r : Reading) (key val : Str) : Reading :=
  let key := cstr key
  if ieq key (ascii "name") then put r val repoNameMax fun e s => { e with name := s }
  else if ieq key (ascii "ver") then put r val repoVerMax fun e s => { e with ver := s }
  else if ieq key (ascii "version") then put r val repoVerMax fun e s => { e with ver := s }
  else if ieq key (ascii "desc") then putCut r val repoDescMax fun e s => { e with desc := s }
  else if ieq key (ascii "author") then put r val repoNameMax fun e s => { e with author := s }
  else if ieq key (ascii "url") then put r val repoUrlMax fun e s => { e with url := s }
  else if ieq key (ascii "sha256") then put r val repoHashMax fun e s => { e with sha256 := s }
  else if ieq key (ascii "abi") then putCut r val 8 fun e s => { e with abi := s }
  else if ieq key (ascii "kind") then putCut r val 10 fun e s => { e with kind := s }
  else if ieq key (ascii "arch") then putCut r val 12 fun e s => { e with arch := s }
  else r

/-- The fields of an object; every pass takes a string at least. -/
def fieldsFrom : (fuel : Nat) → Reading → (object : Str) → Reading
  | 0, r, _ => r
  | fuel + 1, r, q =>
    match nextString q with
    | none => r
    | some (key, q) =>
      let after := q.dropWhile fun c => c = 0x20 || c = 0x3A
      if after.head? ≠ some quote then
        let r := if key = ascii "size" then ({ r.1 with size := sizeAt after }, r.2) else r
        fieldsFrom fuel r q
      else
        match nextString after with
        | none => r
        | some (val, q) => fieldsFrom fuel (if 24 ≤ key.length then r else setField r key val) q

/-- The fields of an object. -/
def fields (object : Str) : Reading := fieldsFrom object.length (.blank, false) object

/-- The entries of the objects of an array; every pass takes a brace at least. -/
def entriesFrom : (fuel : Nat) → Str → List RepoEntry
  | 0, _ => []
  | fuel + 1, p =>
    match p.dropWhile fun c => c ≠ 0x7B && c ≠ 0x5D with
    | [] => []
    | c :: p =>
      if c = 0x5D then []
      else
        match objectBody 1 false p with
        | none => []
        | some (object, rest) =>
          let r := fields object
          if !r.2 && r.1.name ≠ [] && r.1.url ≠ [] then r.1 :: entriesFrom fuel rest
          else entriesFrom fuel rest

/-- What stands behind the first key of the array of packages, when something does. -/
def behindPackages : Str → Option Str
  | [] => none
  | c :: s =>
    if (ascii "\"packages\"").isPrefixOf (c :: s) && 10 < (c :: s).length then some ((c :: s).drop 10)
    else behindPackages s

/-- `repo_walk`: the entries, in the order in which they are visited. -/
def repoWalk (json : Str) : List RepoEntry :=
  match behindPackages json with
  | none => []
  | some arr => entriesFrom arr.length ((arr.dropWhile (· ≠ 0x5B)).drop 1)

/-- `repo_find`. -/
def repoFind (json name : Str) : Option RepoEntry := (repoWalk json).find? fun e => ieq e.name name

end RPCortex.Repo
