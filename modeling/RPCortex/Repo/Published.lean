import RPCortex.Repo.Sources

/-! What is installed comes from the repositories that are configured.  Every cache belongs to the
repository at its place in the list and holds its last index.  The list is edited on its own, so a removal
in front of a cache breaks this. -/

namespace RPCortex.Repo

open Lib

variable {w : World} {s : Sources}

/-! ### The list -/

theorem tokensFrom_append (piece a b : Str) :
    tokensFrom piece (a ++ comma :: b) = tokensFrom piece a ++ tokens b := by
  induction a generalizing piece with
  | nil => simp only [List.nil_append, tokensFrom, if_true, tokens]
  | cons c a ih =>
    rw [List.cons_append, tokensFrom, tokensFrom]
    by_cases h : c = comma
    · rw [if_pos h, if_pos h, ih, List.append_assoc]
    · rw [if_neg h, if_neg h, ih]

theorem tokens_append (a b : Str) : tokens (a ++ comma :: b) = tokens a ++ tokens b :=
  tokensFrom_append [] a b

/-- A piece has no comma and is not empty. -/
structure Piece (t : Str) : Prop where
  plain : comma ∉ t
  nonempty : t ≠ []

theorem tokensFrom_pieces {piece : Str} (plain : comma ∉ piece) (s : Str) :
    ∀ t ∈ tokensFrom piece s, Piece t := by
  induction s generalizing piece with
  | nil =>
    intro t mem
    rw [tokensFrom] at mem
    split at mem
    · cases mem
    · rename_i ne
      obtain rfl := List.mem_singleton.mp mem
      exact ⟨plain, ne⟩
  | cons c s ih =>
    intro t mem
    rw [tokensFrom] at mem
    split at mem
    · rcases List.mem_append.mp mem with mem | mem
      · split at mem
        · cases mem
        · rename_i ne
          obtain rfl := List.mem_singleton.mp mem
          exact ⟨plain, ne⟩
      · exact ih List.not_mem_nil t mem
    · rename_i ne
      refine ih ?_ t mem
      rw [List.mem_append, List.mem_singleton, not_or]
      exact ⟨plain, Ne.symm ne⟩

theorem tokensFrom_piece {t : Str} (plain : comma ∉ t) (piece : Str) (ne : piece ++ t ≠ []) :
    tokensFrom piece t = [piece ++ t] := by
  induction t generalizing piece with
  | nil =>
    rw [List.append_nil] at ne ⊢
    rw [tokensFrom, if_neg ne]
  | cons c t ih =>
    rw [List.mem_cons, not_or] at plain
    rw [tokensFrom, if_neg (Ne.symm plain.1), ih plain.2 _ (by simp)]
    simp

/-- Pieces that are put together come apart again. -/
theorem tokens_join {ts : List Str} (pieces : ∀ t ∈ ts, Piece t) : tokens (join ts) = ts := by
  induction ts with
  | nil => rfl
  | cons t ts ih =>
    have first := pieces t (by simp)
    have single : tokens t = [t] := tokensFrom_piece first.plain [] (by simpa using first.nonempty)
    have rest := ih fun t mem => pieces t (by simp [mem])
    cases ts with
    | nil => exact single
    | cons u ts =>
      rw [join, tokens_append, single, rest]
      · rfl
      · simp

theorem join_eq_nil {ts : List Str} (pieces : ∀ t ∈ ts, Piece t) (h : join ts = []) : ts = [] := by
  rw [← tokens_join pieces, h]
  rfl

theorem repoEach_of_ne {list : Str} (h : list ≠ []) : repoEach list = (tokens list).filterMap repoUrl := by
  rw [repoEach, if_neg h]

/-- A URL that is taken in stands behind the others. -/
theorem repoAdd_urls {list url longer : Str} (h : repoAdd list url = some longer) (ne : list ≠ []) :
    ∃ more, repoEach longer = repoEach list ++ more := by
  simp only [repoAdd, if_neg ne] at h
  split at h
  · cases h
  · split at h
    · cases h
    · split at h
      · cases h
      · obtain rfl := Option.some.inj h
        refine ⟨(tokens url).filterMap repoUrl, ?_⟩
        rw [List.append_assoc, List.singleton_append, repoEach_of_ne (by simp [ne]),
          tokens_append, List.filterMap_append, repoEach_of_ne ne]

/-- The repositories in front of the first piece that goes. -/
def kept (list arg : Str) : List Str :=
  ((((tokens list).zipIdx 1).takeWhile fun p => !goes arg p).map Prod.fst).filterMap repoUrl

/-- They keep their places. -/
theorem repoRemove_urls {list arg shorter : Str} (h : repoRemove list arg = some shorter)
    {i : Nat} (hi : i < (kept list arg).length) : (repoEach shorter)[i]? = (repoEach list)[i]? := by
  simp only [repoRemove] at h
  split at h
  · obtain rfl := Option.some.inj h
    generalize hp : (tokens list).zipIdx 1 = pieces
    have whole : ∀ p ∈ pieces, Piece p.1 := by
      intro p mem
      rw [← hp] at mem
      exact tokensFrom_pieces List.not_mem_nil list p.1 (List.fst_mem_of_mem_zipIdx mem)
    have left : ∀ t ∈ (pieces.filter fun p => !goes arg p).map Prod.fst, Piece t := by
      intro t mem
      obtain ⟨p, among, rfl⟩ := List.mem_map.mp mem
      exact whole p (List.mem_filter.mp among).1
    have front : kept list arg = ((pieces.takeWhile fun p => !goes arg p).map Prod.fst).filterMap repoUrl := by
      rw [kept, hp]
    have split : (pieces.map Prod.fst).filterMap repoUrl = kept list arg ++
        ((pieces.dropWhile fun p => !goes arg p).map Prod.fst).filterMap repoUrl := by
      rw [front, ← List.filterMap_append, ← List.map_append, List.takeWhile_append_dropWhile]
    have stays : (pieces.takeWhile fun p => !goes arg p).filter (fun p => !goes arg p) =
        pieces.takeWhile fun p => !goes arg p := by
      rw [List.filter_eq_self]
      exact fun p mem => List.mem_takeWhile_imp (p := fun p => !goes arg p) mem
    have filtered : ((pieces.filter fun p => !goes arg p).map Prod.fst).filterMap repoUrl =
        kept list arg ++ (((pieces.dropWhile fun p => !goes arg p).filter fun p =>
          !goes arg p).map Prod.fst).filterMap repoUrl := by
      rw [front, ← List.filterMap_append, ← List.map_append]
      nth_rewrite 1 [← List.takeWhile_append_dropWhile (p := fun p => !goes arg p) (l := pieces)]
      rw [List.filter_append, stays]
    have ne : list ≠ [] := by
      rintro rfl
      rw [← hp] at front
      rw [front] at hi
      exact absurd hi (Nat.not_lt_zero _)
    have ne' : join ((pieces.filter fun p => !goes arg p).map Prod.fst) ≠ [] := by
      intro no
      rw [join_eq_nil left no] at filtered
      have := congrArg List.length filtered
      rw [List.length_append] at this
      simp only [List.filterMap_nil, List.length_nil] at this
      omega
    have before : repoEach list = (pieces.map Prod.fst).filterMap repoUrl := by
      rw [repoEach_of_ne ne, ← hp, List.zipIdx_map_fst]
    have after : repoEach (join ((pieces.filter fun p => !goes arg p).map Prod.fst)) =
        ((pieces.filter fun p => !goes arg p).map Prod.fst).filterMap repoUrl := by
      rw [repoEach_of_ne ne', tokens_join left]
    rw [before, after, split, filtered, List.getElem?_append_left hi, List.getElem?_append_left hi]
  · cases h

/-! ### The invariant -/

/-- Every cache is the last index of the repository at its place, and every repository whose last fetch
succeeded has its cache. -/
structure Inv (w : World) : Prop where
  cached : ∀ i body, w.sources.cache i = some body →
    repoWalk (readable body) ≠ [] ∧
      ∃ u, w.sources.urls[i]? = some u ∧ w.published u = some body
  fresh : ∀ u, w.fresh u = true →
    ∃ i body, w.sources.urls[i]? = some u ∧ (∀ k < i, w.sources.urls[k]? ≠ some u) ∧
      w.sources.cache i = some body

theorem inv_start : Inv .start := ⟨fun _ _ no => (nomatch no), fun _ no => (nomatch no)⟩

/-- An edit of the list behind the repositories with a cache. -/
theorem Inv.edit (inv : Inv w) {list : Str} (same : ∀ i body, w.sources.cache i = some body →
      ∀ k ≤ i, (repoEach list)[k]? = w.sources.urls[k]?) :
    Inv { w with sources := { w.sources with list := some list } } := by
  constructor
  · intro i body cached
    obtain ⟨some_, u, place, published⟩ := inv.cached i body cached
    exact ⟨some_, u, (same i body cached i le_rfl).trans place, published⟩
  · intro u fresh
    obtain ⟨i, body, place, first, cached⟩ := inv.fresh u fresh
    refine ⟨i, body, (same i body cached i le_rfl).trans place, fun k before no => ?_, cached⟩
    exact first k before ((same i body cached k before.le).symm.trans no)

/-- A fetch that leaves no cache, or does not touch it. -/
theorem Inv.lost {url : Str} {i : Nat} (inv : Inv w) (here : w.sources.urls[i]? = some url)
    {cache : Nat → Option Str} (others : ∀ j, j ≠ i → cache j = w.sources.cache j)
    (less : ∀ body, cache i = some body → w.sources.cache i = some body) :
    Inv { w with
      sources := { w.sources with cache }
      fresh := Function.update w.fresh url false } := by
  constructor
  · intro j body cached
    by_cases h : j = i
    · subst h
      exact inv.cached j body (less body cached)
    · exact inv.cached j body ((others j h).symm.trans cached)
  · intro u fresh
    by_cases h : u = url
    · subst h
      simp at fresh
    · simp only [Function.update_of_ne h] at fresh
      obtain ⟨j, body, place, first, cached⟩ := inv.fresh u fresh
      have ne : j ≠ i := by
        rintro rfl
        rw [place] at here
        exact h (Option.some.inj here)
      exact ⟨j, body, place, first, (others j ne).trans cached⟩

theorem getElem?_inj {urls : List Str} (nodup : urls.Nodup) {i j : Nat} {u : Str}
    (hi : urls[i]? = some u) (hj : urls[j]? = some u) : i = j := by
  obtain ⟨hi', eq⟩ := List.getElem?_eq_some_iff.mp hi
  obtain ⟨hj', eq'⟩ := List.getElem?_eq_some_iff.mp hj
  exact (List.Nodup.getElem_inj_iff nodup).mp (eq.trans eq'.symm)

theorem Inv.updateOne {url : Str} {i : Nat} (inv : Inv w) (nodup : w.sources.urls.Nodup)
    (here : w.sources.urls[i]? = some url) (result : Fetch) :
    Inv (updateOne w url i result) ∧ (updateOne w url i result).sources.list = w.sources.list := by
  cases result with
  | refused => exact ⟨inv.lost here (fun _ _ => rfl) fun _ h => h, rfl⟩
  | failed =>
    refine ⟨inv.lost here (fun j h => Function.update_of_ne h _ _) fun body no => ?_, rfl⟩
    simp at no
  | arrived body =>
    by_cases empty : repoWalk (readable body) = []
    · simp only [Repo.updateOne, if_pos empty]
      refine ⟨inv.lost here (fun j h => Function.update_of_ne h _ _) fun body no => ?_, trivial⟩
      simp at no
    · simp only [Repo.updateOne, if_neg empty]
      refine ⟨⟨?_, ?_⟩, trivial⟩
      · intro j body' cached
        simp only at cached
        by_cases h : j = i
        · subst h
          rw [Function.update_self] at cached
          obtain rfl := Option.some.inj cached
          exact ⟨empty, url, here, Function.update_self ..⟩
        · rw [Function.update_of_ne h] at cached
          obtain ⟨some_, u, place, published⟩ := inv.cached j body' cached
          have ne : u ≠ url := by
            rintro rfl
            exact h (getElem?_inj nodup place here)
          exact ⟨some_, u, place, (Function.update_of_ne ne ..).trans published⟩
      · intro u fresh
        simp only at fresh
        by_cases h : u = url
        · subst h
          refine ⟨i, body, here, fun k before no => ?_, Function.update_self ..⟩
          exact absurd (getElem?_inj nodup no here) (by omega)
        · rw [Function.update_of_ne h] at fresh
          obtain ⟨j, body', place, first, cached⟩ := inv.fresh u fresh
          have ne : j ≠ i := by
            rintro rfl
            rw [place] at here
            exact h (Option.some.inj here)
          exact ⟨j, body', place, first, (Function.update_of_ne ne ..).trans cached⟩

theorem Inv.doUpdate (inv : Inv w) (nodup : w.sources.urls.Nodup) (results : Nat → Fetch) :
    Inv (doUpdate w results) := by
  have among : ∀ p ∈ w.sources.urls.zipIdx, w.sources.urls[p.2]? = some p.1 := by
    intro p mem
    exact List.mem_zipIdx_iff_getElem?.mp mem
  rw [Repo.doUpdate]
  generalize w.sources.urls.zipIdx = rest at among
  generalize hu : w.sources.urls = urls at among nodup
  induction rest generalizing w with
  | nil => exact inv
  | cons p rest ih =>
    obtain ⟨inv', list⟩ := inv.updateOne (hu ▸ nodup) (hu ▸ among p (by simp)) (results p.2)
    refine ih inv' ?_ fun q mem => among q (by simp [mem])
    rw [← hu, Sources.urls, Sources.urls, Sources.text, Sources.text, list]

/-! ### Careful steps -/

/-- A step that keeps the caches with their repositories.  A URL is not put into an emptied list that has
the cache of the default repository; nothing goes out of the list from a place at or in front of a cache; and
no repository is fetched at two places. -/
def Careful (w : World) : Action → Prop
  | .add _ _ => w.sources.text = [] → w.sources.cache 0 = none
  | .remove arg _ => ∀ i, (kept w.sources.text arg).length ≤ i → w.sources.cache i = none
  | .update _ => w.sources.urls.Nodup

theorem repoEach_default : repoEach [] = [repoDefault] := by decide +kernel

theorem Inv.step {a : Action} (inv : Inv w) (careful : Careful w a) : Inv (w.step a) := by
  cases a with
  | add url stored =>
    simp only [World.step]
    cases h : repoAdd w.sources.text url with
    | none => exact inv
    | some longer =>
      cases stored with
      | false => exact inv
      | true =>
        refine inv.edit fun i body cached k le => ?_
        have inside : i < w.sources.urls.length := by
          obtain ⟨_, u, place, _⟩ := inv.cached i body cached
          exact (List.getElem?_eq_some_iff.mp place).1
        by_cases empty : w.sources.text = []
        · rw [Sources.urls, empty, repoEach_default, List.length_singleton] at inside
          obtain rfl : i = 0 := by omega
          rw [careful empty] at cached
          cases cached
        · obtain ⟨more, eq⟩ := repoAdd_urls h empty
          rw [eq]
          exact List.getElem?_append_left (le.trans_lt inside)
  | remove arg stored =>
    simp only [World.step]
    cases h : repoRemove w.sources.text arg with
    | none => exact inv
    | some shorter =>
      cases stored with
      | false => exact inv
      | true =>
        refine inv.edit fun i body cached k le => ?_
        refine repoRemove_urls h (not_le.mp fun behind => ?_)
        rw [careful i (behind.trans le)] at cached
        cases cached
  | update results => exact inv.doUpdate careful results

/-! ### What is looked up -/

theorem loadCache_some {i : Nat} {json : Str} (h : loadCache s i = some json) :
    ∃ body, s.cache i = some body ∧ json = readable body := by
  unfold loadCache at h
  obtain ⟨h, _⟩ := Option.filter_eq_some_iff.mp h
  obtain ⟨body, cached, rfl⟩ := Option.map_eq_some_iff.mp h
  exact ⟨body, cached, rfl⟩

theorem loadCache_of_entries {i : Nat} {body : Str} (cached : s.cache i = some body)
    (some_ : repoWalk (readable body) ≠ []) : loadCache s i = some (readable body) := by
  have ne : readable body ≠ [] := fun no => some_ (by rw [no]; rfl)
  rw [loadCache, cached, Option.map_some, Option.filter_some, if_pos (by simpa using ne)]

/-- The first of some numbers that has a result. -/
theorem findSome?_range {α : Type} {f : Nat → Option α} {n : Nat} {a : α}
    (h : (List.range n).findSome? f = some a) : ∃ i < n, f i = some a ∧ ∀ j < i, f j = none := by
  induction n with
  | zero => cases h
  | succ n ih =>
    rw [List.range_succ, List.findSome?_append, Option.or_eq_some_iff] at h
    rcases h with h | ⟨before, h⟩
    · obtain ⟨i, lt, eq, first⟩ := ih h
      exact ⟨i, by omega, eq, first⟩
    · refine ⟨n, by omega, by simpa using h, fun j lt => ?_⟩
      exact List.findSome?_eq_none_iff.mp before j (by simpa using lt)

/-! ### What the commands work with -/

/-- An entry that `pkg search`, `pkg info`, `pkg install` or `pkg upgrade` goes on with. -/
def Acts (s : Sources) (e : RepoEntry) : Prop :=
  (∃ query shown, doSearch s query = some shown ∧ e ∈ shown) ∨ (∃ name, doFind s name = some e) ∨
    e ∈ doWalk s

/-- Every entry comes from the last index of a configured repository, and of those in front of it whose
last fetch succeeded none has the name. -/
structure Sound (w : World) : Prop where
  published : ∀ e, Acts w.sources e →
    ∃ u ∈ w.sources.urls, ∃ body, w.published u = some body ∧ e ∈ repoWalk (readable body)
  priority : ∀ name e, doFind w.sources name = some e →
    ∃ (i : Nat) (u body : Str), w.sources.urls[i]? = some u ∧ w.published u = some body ∧
      repoFind (readable body) name = some e ∧
      ∀ j < i, ∀ u' body' : Str, w.sources.urls[j]? = some u' → w.fresh u' = true →
        w.published u' = some body' → repoFind (readable body') name = none

/-- Every configured repository whose last fetch succeeded is searched. -/
def Complete (w : World) : Prop :=
  ∀ u ∈ w.sources.urls, w.fresh u = true → ∃ body, w.published u = some body ∧
    (∀ e ∈ repoWalk (readable body), e ∈ doWalk w.sources ∧
      ∀ query, listed query e = true → ∃ shown, doSearch w.sources query = some shown ∧ e ∈ shown) ∧
    ∀ name, (repoFind (readable body) name).isSome = true → (doFind w.sources name).isSome = true

theorem mem_walkAllRepos {e : RepoEntry} : e ∈ walkAllRepos s ↔
    ∃ i < cacheLimit, ∃ json, loadCache s i = some json ∧ e ∈ repoWalk json := by
  simp only [walkAllRepos, List.mem_flatMap, List.mem_range]
  refine exists_congr fun i => and_congr_right fun _ => ?_
  cases loadCache s i with
  | none => simp
  | some json => simp

/-- The index of a cache is that of its repository. -/
theorem Inv.loaded (inv : Inv w) {i : Nat} {json : Str} (h : loadCache w.sources i = some json) :
    ∃ u body, w.sources.urls[i]? = some u ∧ w.published u = some body ∧ json = readable body := by
  obtain ⟨body, cached, rfl⟩ := loadCache_some h
  obtain ⟨_, u, place, published⟩ := inv.cached i body cached
  exact ⟨u, body, place, published, rfl⟩

theorem Inv.walked (inv : Inv w) {e : RepoEntry} (h : e ∈ walkAllRepos w.sources) :
    ∃ u ∈ w.sources.urls, ∃ body, w.published u = some body ∧ e ∈ repoWalk (readable body) := by
  obtain ⟨i, _, json, loaded, mem⟩ := mem_walkAllRepos.mp h
  obtain ⟨u, body, place, published, rfl⟩ := inv.loaded loaded
  exact ⟨u, List.mem_of_getElem? place, body, published, mem⟩

/-- The cache of a repository whose last fetch succeeded. -/
theorem Inv.fresh_loaded (inv : Inv w) {u : Str} (fresh : w.fresh u = true) :
    ∃ i body, w.sources.urls[i]? = some u ∧ (∀ k < i, w.sources.urls[k]? ≠ some u) ∧
      w.published u = some body ∧ loadCache w.sources i = some (readable body) := by
  obtain ⟨i, body, place, first, cached⟩ := inv.fresh u fresh
  obtain ⟨some_, u', place', published⟩ := inv.cached i body cached
  obtain rfl : u = u' := Option.some.inj (place.symm.trans place')
  exact ⟨i, body, place, first, published, loadCache_of_entries cached some_⟩

theorem findInAnyRepo_some {name : Str} {e : RepoEntry} (h : findInAnyRepo s name = some e) :
    ∃ i < cacheLimit, ∃ json, loadCache s i = some json ∧ repoFind json name = some e ∧
      ∀ j < i, ∀ json', loadCache s j = some json' → repoFind json' name = none := by
  obtain ⟨i, lt, hit, first⟩ := findSome?_range h
  obtain ⟨json, loaded, found⟩ := Option.bind_eq_some_iff.mp hit
  refine ⟨i, lt, json, loaded, found, fun j before json' loaded' => ?_⟩
  have := first j before
  rwa [loaded', Option.bind_some] at this

theorem doFind_some {name : Str} {e : RepoEntry} (h : doFind s name = some e) :
    findInAnyRepo s name = some e := by
  unfold doFind at h
  split at h
  · exact h
  · cases h

theorem Inv.sound (inv : Inv w) : Sound w := by
  constructor
  · rintro e (⟨query, shown, search, mem⟩ | ⟨name, h⟩ | mem)
    · unfold doSearch at search
      split at search
      · obtain rfl := Option.some.inj search
        exact inv.walked (List.mem_filter.mp mem).1
      · cases search
    · obtain ⟨i, lt, json, loaded, hit, _⟩ := findInAnyRepo_some (doFind_some h)
      exact inv.walked (mem_walkAllRepos.mpr ⟨i, lt, json, loaded, List.mem_of_find?_eq_some hit⟩)
    · unfold doWalk at mem
      split at mem
      · exact inv.walked mem
      · cases mem
  · intro name e h
    obtain ⟨i, _, json, loaded, hit, before⟩ := findInAnyRepo_some (doFind_some h)
    obtain ⟨u, body, place, published, rfl⟩ := inv.loaded loaded
    refine ⟨i, u, body, place, published, hit, fun j lt u' body' place' fresh published' => ?_⟩
    obtain ⟨k, body'', _, first, published'', loaded'⟩ := inv.fresh_loaded fresh
    obtain rfl : body'' = body' := Option.some.inj (published''.symm.trans published')
    have le : k ≤ j := not_lt.mp fun lt => first j lt place'
    exact before k (by omega) _ loaded'

/-- The state in which the searches reach every cache: there are no more repositories than they look at,
and the first one has an index when any other has. -/
structure Searchable (w : World) : Prop where
  few : w.sources.urls.length ≤ cacheLimit
  gate : w.sources.cache 0 = none → ∀ i, w.sources.cache i = none

theorem Inv.complete (inv : Inv w) (searchable : Searchable w) : Complete w := by
  intro u _ fresh
  obtain ⟨i, body, place, _, published, loaded⟩ := inv.fresh_loaded fresh
  have few := searchable.few
  have inside := (List.getElem?_eq_some_iff.mp place).1
  have open_ : requireIndex w.sources = true := by
    obtain ⟨_, cached, _⟩ := loadCache_some loaded
    cases first : w.sources.cache 0 with
    | none =>
      rw [searchable.gate first i] at cached
      cases cached
    | some body' =>
      rw [requireIndex, loadCache_of_entries first (inv.cached 0 body' first).1, Option.isSome_some]
  refine ⟨body, published, fun e mem => ?_, fun name hit => ?_⟩
  · have walked : e ∈ walkAllRepos w.sources := mem_walkAllRepos.mpr ⟨i, by omega, _, loaded, mem⟩
    rw [doWalk, if_pos open_]
    refine ⟨walked, fun query shows => ⟨_, if_pos open_, List.mem_filter.mpr ⟨walked, shows⟩⟩⟩
  · rw [doFind, if_pos open_, findInAnyRepo, List.findSome?_isSome_iff]
    refine ⟨i, List.mem_range.mpr (by omega), ?_⟩
    rw [loaded]
    exact hit

/-- In every run of careful steps: what is acted on was published by the last successful fetch of a
configured repository, and every repository whose last fetch succeeded is searched wherever the searches
reach. -/
theorem sound_of_run (run : Run (fun w a => some (World.step w a)) Careful .start w) :
    Sound w ∧ (Searchable w → Complete w) := by
  have inv : Inv w := by
    refine run.invariant inv_start fun w a w' inv careful taken => ?_
    obtain rfl := Option.some.inj taken
    exact inv.step careful
  exact ⟨inv.sound, inv.complete⟩

/-- An index of one package. -/
def indexOf (name : Str) : Str :=
  ascii "\"packages\":[\x7b\"name\":\"" ++ name ++ ascii "\",\"url\":\"u\"\x7d]"

/-- A second repository is added, and both are fetched. -/
def bothFetched : World :=
  (World.start.step (.add (ascii "http://a") true)).step
    (.update fun i => .arrived (indexOf (if i = 0 then ascii "x" else ascii "y")))

theorem sound_of_run_both : Sound bothFetched ∧ Complete bothFetched := by
  have both := sound_of_run (w := bothFetched)
    (.tail (.tail .refl (a := .add (ascii "http://a") true) (fun h => absurd h (by decide)) rfl)
      (a := .update _) (by change List.Nodup _; decide +kernel) rfl)
  refine ⟨both.1, both.2 ⟨by decide +kernel, fun h => ?_⟩⟩
  exact absurd h (by decide +kernel)

/-- The second repository is removed, and its cache stays. -/
theorem not_all_runs_sound : ¬∀ w, Run (fun w a => some (World.step w a)) (fun _ _ => True) .start w →
    Sound w ∧ Complete w := by
  intro all
  have fetched : Run (fun w a => some (World.step w a)) (fun _ _ => True) .start bothFetched :=
    .tail (.tail .refl (a := .add (ascii "http://a") true) trivial rfl) (a := .update _) trivial rfl
  have sound := (all _ (fetched.tail (a := .remove (ascii "2") true) trivial rfl)).1
  have found : doFind (bothFetched.step (.remove (ascii "2") true)).sources (ascii "y") =
      some { RepoEntry.blank with name := ascii "y", url := ascii "u" } := by decide +kernel
  obtain ⟨u, configured, body, published, mem⟩ := sound.published _ (Or.inr (Or.inl ⟨_, found⟩))
  have only : (bothFetched.step (.remove (ascii "2") true)).sources.urls = [repoDefault] := by
    decide +kernel
  rw [only, List.mem_singleton] at configured
  subst configured
  have last : (bothFetched.step (.remove (ascii "2") true)).published repoDefault =
      some (indexOf (ascii "x")) := by decide +kernel
  have same : indexOf (ascii "x") = body := Option.some.inj (last.symm.trans published)
  rw [← same] at mem
  exact absurd mem (by decide +kernel)

end RPCortex.Repo
