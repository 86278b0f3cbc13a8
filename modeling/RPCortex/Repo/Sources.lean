import RPCortex.Lib.CNumber
import RPCortex.Lib.Run
import RPCortex.Repo.Index

/-! `pkgrepo.cpp`: the list of repositories, the files in which their indexes are kept, and the commands
that edit the one, fill the other and look something up.  The list is a text in the registry; the files
are numbered by the place of their repository in the list. -/

namespace RPCortex.Repo

open Lib Package

abbrev comma : UInt8 := 0x2C

/-- `REPO_DEFAULT`. -/
def repoDefault : Str :=
  ascii "https://raw.githubusercontent.com/dash1101/RPCortex-repo/main/repo-v2/index.json"

/-- `REG_VAL_MAX`. -/
def regValMax : Nat := 96

/-- `INDEX_MAX`. -/
def indexMax : Nat := 16384

/-- The caches that are looked at. -/
def cacheLimit : Nat := 8

/-! ### The list -/

/-- The pieces of a text between its commas, as `strtok` finds them: none is empty. -/
def tokensFrom : (piece : Str) → Str → List Str
  | piece, [] => if piece = [] then [] else [piece]
  | piece, c :: s =>
    if c = comma then (if piece = [] then [] else [piece]) ++ tokensFrom [] s
    else tokensFrom (piece ++ [c]) s

def tokens (list : Str) : List Str := tokensFrom [] list

/-- A text without the spaces around it. -/
def trim (s : Str) : Str :=
  ((s.dropWhile (· = 0x20)).reverse.dropWhile (· = 0x20)).reverse

/-- The repository that a piece of the list names. -/
def repoUrl (piece : Str) : Option Str :=
  if trim piece ≠ [] ∧ (trim piece).length < repoUrlMax then some (trim piece) else none

/-- `repo_each`: the repositories of a list. -/
def repoEach (list : Str) : List Str :=
  (tokens (if list = [] then repoDefault else list)).filterMap repoUrl

/-- `strstr`. -/
def strstr (s part : Str) : Bool := s.tails.any fun t => part.isPrefixOf t

/-- `pkg repo add`: the new list when the URL is taken in. -/
def repoAdd (list url : Str) : Option Str :=
  let longer := list ++ (if list = [] then [] else [comma]) ++ url
  if !(ascii "http://").isPrefixOf url && !(ascii "https://").isPrefixOf url then none
  else if strstr list url then none
  else if regValMax ≤ longer.length then none
  else some longer

/-- Pieces with commas between them. -/
def join : List Str → Str
  | [] => []
  | [t] => t
  | t :: ts => t ++ comma :: join ts

/-- Whether `pkg repo remove` takes the piece at a place, counted from one, out of the list. -/
def goes (arg : Str) (piece : Str × Nat) : Bool :=
  let want := (strtoint (2 ^ 31) 10 arg).getD 0
  (0 < want ∧ (piece.2 : Int) = want) ∨ piece.1 = arg

/-- `pkg repo remove`: the new list when something goes. -/
def repoRemove (list arg : Str) : Option Str :=
  let pieces := (tokens list).zipIdx 1
  if pieces.any (goes arg) then some (join ((pieces.filter fun p => !goes arg p).map Prod.fst)) else none

/-! ### The caches -/

/-- The list in the registry and the files at `cache_path`. -/
structure Sources where
  list : Option Str
  cache : Nat → Option Str

/-- `reg_get` of the list. -/
def Sources.text (s : Sources) : Str := s.list.getD repoDefault

/-- The repositories that are configured. -/
def Sources.urls (s : Sources) : List Str := repoEach s.text

/-- What is read of an index. -/
def readable (body : Str) : Str := body.take (indexMax - 1)

/-- `load_cache` of one of the files. -/
def loadCache (s : Sources) (i : Nat) : Option Str :=
  ((s.cache i).map readable).filter (· ≠ [])

/-- `require_index`. -/
def requireIndex (s : Sources) : Bool := (loadCache s 0).isSome

/-- `find_in_any_repo`. -/
def findInAnyRepo (s : Sources) (name : Str) : Option RepoEntry :=
  (List.range cacheLimit).findSome? fun i => (loadCache s i).bind fun json => repoFind json name

/-- `walk_all_repos`: the entries, in the order in which they are visited. -/
def walkAllRepos (s : Sources) : List RepoEntry :=
  (List.range cacheLimit).flatMap fun i => ((loadCache s i).map repoWalk).getD []

/-- The entries that `list_cb` shows. -/
def listed (query : Option Str) (e : RepoEntry) : Bool :=
  match query with
  | none => true
  | some q => strstr ((e.name ++ 0x20 :: e.desc).map lower) ((q.take 63).map lower)

/-- `do_search`. -/
def doSearch (s : Sources) (query : Option Str) : Option (List RepoEntry) :=
  if requireIndex s then some ((walkAllRepos s).filter (listed query)) else none

/-- The entry of `do_info`, and the one that `do_install` goes on with. -/
def doFind (s : Sources) (name : Str) : Option RepoEntry :=
  if requireIndex s then findInAnyRepo s name else none

/-- The entries that `do_upgrade` goes through. -/
def doWalk (s : Sources) : List RepoEntry := if requireIndex s then walkAllRepos s else []

/-! ### Commands -/

/-- The result of a download. -/
inductive Fetch
  /-- There is no network, no way to verify, or no file to write to. -/
  | refused
  | failed
  | arrived (body : Str)

/-- The sources with what has been fetched so far: the index of the last fetch of a URL that succeeded,
and whether its last fetch did. -/
structure World where
  sources : Sources
  published : Str → Option Str
  fresh : Str → Bool

/-- `update_one`. -/
def updateOne (w : World) (url : Str) (i : Nat) : Fetch → World
  | .refused => { w with fresh := Function.update w.fresh url false }
  | .failed =>
    { w with
      sources := { w.sources with cache := Function.update w.sources.cache i none }
      fresh := Function.update w.fresh url false }
  | .arrived body =>
    if repoWalk (readable body) = [] then
      { w with
        sources := { w.sources with cache := Function.update w.sources.cache i none }
        fresh := Function.update w.fresh url false }
    else
      { sources := { w.sources with cache := Function.update w.sources.cache i (some body) }
        published := Function.update w.published url (some body)
        fresh := Function.update w.fresh url true }

/-- `do_update`; `results` are the downloads, by the place of the repository. -/
def doUpdate (w : World) (results : Nat → Fetch) : World :=
  w.sources.urls.zipIdx.foldl (fun w p => updateOne w p.1 p.2 (results p.2)) w

/-- What is done with the repositories.  `stored` says whether the registry had room for the list. -/
inductive Action
  | add (url : Str) (stored : Bool)
  | remove (arg : Str) (stored : Bool)
  | update (results : Nat → Fetch)

/-- The world with a new list, when there is one and it is stored. -/
def World.edit (w : World) (list : Option Str) (stored : Bool) : World :=
  match list with
  | none => w
  | some list => if stored then { w with sources := { w.sources with list := some list } } else w

/-- What a command does. -/
def World.step (w : World) : Action → World
  | .add url stored => w.edit (repoAdd w.sources.text url) stored
  | .remove arg stored => w.edit (repoRemove w.sources.text arg) stored
  | .update results => doUpdate w results

/-- A device on which nothing has been configured or fetched. -/
def World.start : World := ⟨⟨none, fun _ => none⟩, fun _ => none, fun _ => false⟩

end RPCortex.Repo
