import RPCortex.Package.Install
import RPCortex.Repo.Sources

/-! `pkg upgrade`: the entries of all caches are gone through, and a package that is older than its entry
or whose file differs from it is installed again, by its name.  Everything that is downloaded, read and
installed succeeds as far as `Outcomes` says so. -/

namespace RPCortex.Repo

open Lib Package Slot

/-! ### Versions -/

/-- `version_digits`: it saturates. -/
def versionDigits (s : Str) : Nat × Str :=
  ((s.takeWhile isDigit).foldl (fun v c =>
    let d := c.toNat - 0x30
    if (0x7FFFFFFF - d) / 10 < v then 0x7FFFFFFF else v * 10 + d) 0, s.dropWhile isDigit)

/-- The comparison of two suffixes; one that is not there comes first. -/
def suffixCmp : Str → Str → Int
  | [], [] => 0
  | [], _ :: _ => -1
  | _ :: _, [] => 1
  | a :: s, b :: t => if a = b then suffixCmp s t else if a < b then -1 else 1

abbrev dot : UInt8 := 0x2E

/-- The loop of `repo_version_cmp`; every pass takes a character at least. -/
def versionFrom : (fuel : Nat) → Str → Str → Int
  | 0, _, _ => 0
  | fuel + 1, a, b =>
    if a = [] ∧ b = [] then 0
    else
      let x := versionDigits a
      let y := versionDigits b
      if x.1 ≠ y.1 then if x.1 < y.1 then -1 else 1
      else
        let c := suffixCmp (x.2.takeWhile (· ≠ dot)) (y.2.takeWhile (· ≠ dot))
        if c ≠ 0 then c
        else versionFrom fuel ((x.2.dropWhile (· ≠ dot)).drop 1) ((y.2.dropWhile (· ≠ dot)).drop 1)

/-- `repo_version_cmp`. -/
def repoVersionCmp (a b : Str) : Int := versionFrom (a.length + b.length) a b

/-! ### Architectures -/

/-- `arch_one_runs_here`, on a board with an RP2040 or not. -/
def archOneRunsHere (rp2040 : Bool) (a : Str) : Bool :=
  if rp2040 then a = ascii "armv6m" else a = ascii "armv8m" ∨ a = ascii "armv6m"

/-- `arch_runs_here`. -/
def archRunsHere (rp2040 : Bool) (arch : Str) : Bool :=
  arch = [] || (tokens arch).any fun piece => archOneRunsHere rp2040 (trim piece)

/-! ### Installing -/

/-- `TMP_PKG`. -/
def tmpPkg : Str := ascii "/os/pkg/.download"

/-- `PKG_HASH_MAX`. -/
def pkgHashMax : Nat := 65536

/-- What an upgrade meets outside: the board, its firmware, the file that a URL serves, the digits of a
SHA-256, and how the calls of an install end, given the number of the install and the file. -/
structure Host where
  rp2040 : Bool
  fw : Firmware
  served : Str → Str
  hex : Str → Str
  outcomes : Nat → Str → Outcomes

section Host

variable (host : Host)

/-- `installed_matches` for the file of a package. -/
def contentMatches (content : Option Str) (want : Str) : Bool :=
  want = [] || match content with
    | none => true
    | some bytes => bytes = [] || host.hex (bytes.take pkgHashMax) = want

/-- `installed_matches`. -/
def installedMatches (d : Device) (name want : Str) : Bool :=
  contentMatches host (d.files ((pkgPath name).take 47)) want

/-- `do_install`, the install of a number; the file of the download is removed behind it. -/
def doInstall (s : Sources) (d : Device) (k : Nat) (name : Str) : Bool × Device :=
  match doFind s name with
  | none => (false, d)
  | some e =>
    if !archRunsHere host.rp2040 e.arch then (false, d)
    else
      let body := host.served e.url
      let d := { d with files := upd d.files tmpPkg (some body) }
      if e.sha256 ≠ [] ∧ host.hex body ≠ e.sha256 then
        (false, { d with files := upd d.files tmpPkg none })
      else
        let r := pkgInstallFile host.fw (host.outcomes k body) d tmpPkg true
        (r.1.isOk, { r.2 with files := upd r.2.files tmpPkg none })

/-- Whether an entry is newer than what is installed under its name, or its file is another. -/
def due (d : Device) (e : RepoEntry) : Bool :=
  match (installedVersion d e.name).map (·.take 23) with
  | none => false
  | some have_ => 0 < repoVersionCmp e.ver have_ || !installedMatches host d e.name e.sha256

/-- The device with the names and versions that have been announced. -/
structure Upgrade where
  device : Device
  announced : List (Str × Str)

/-- `upgrade_cb`. -/
def upgradeCb (s : Sources) (u : Upgrade) (e : RepoEntry) : Upgrade :=
  if due host u.device e then
    ⟨(doInstall host s u.device u.announced.length e.name).2, u.announced ++ [(e.name, e.ver)]⟩
  else u

/-- `do_upgrade`. -/
def doUpgrade (s : Sources) (d : Device) : Upgrade := (doWalk s).foldl (upgradeCb host s) ⟨d, []⟩

end Host

/-! ### Versions in order -/

section Order

variable {K L : Type} [LinearOrder K] [LinearOrder L] {x y : K} {a b c s t : Str} {n : Nat}

/-- The comparison of an order, as `-1`, `0` or `1`. -/
def sign (x y : K) : Int := if x = y then 0 else if x < y then -1 else 1

theorem sign_self : sign x x = 0 := if_pos rfl

theorem sign_swap : sign x y = -sign y x := by
  unfold sign
  rcases lt_trichotomy x y with less | same | less
  · rw [if_neg less.ne, if_pos less, if_neg less.ne', if_neg less.not_gt]
  · rw [if_pos same, if_pos same.symm]
    rfl
  · rw [if_neg less.ne', if_neg less.not_gt, if_neg less.ne, if_pos less]
    rfl

theorem sign_le : sign x y ≤ 0 ↔ x ≤ y := by
  unfold sign
  rcases lt_trichotomy x y with less | same | less
  · rw [if_neg less.ne, if_pos less]
    exact ⟨fun _ => less.le, fun _ => by decide⟩
  · rw [if_pos same]
    exact ⟨fun _ => same.le, fun _ => by decide⟩
  · rw [if_neg less.ne', if_neg less.not_gt]
    exact ⟨fun no => absurd no (by decide), fun le => absurd le less.not_ge⟩

theorem sign_ne (other : x ≠ y) : sign x y ≠ 0 := by
  rw [sign, if_neg other]
  split <;> decide

/-- The comparison of two pairs goes by what comes first. -/
theorem sign_lex {M : Type} [LinearOrder M] {u v : L} {p q : M} (eq : p = q ↔ x = y ∧ u = v)
    (lt : p < q ↔ x < y ∨ x = y ∧ u < v) : sign p q = if sign x y ≠ 0 then sign x y else sign u v := by
  by_cases same : x = y
  · rw [same, sign_self, if_neg (not_not.mpr rfl)]
    have eq' : p = q ↔ u = v := by rw [eq, and_iff_right same]
    have lt' : p < q ↔ u < v := by rw [lt, and_iff_right same, or_iff_right (same ▸ lt_irrefl x)]
    unfold sign
    simp only [eq', lt']
  · have apart : p ≠ q := fun no => same (eq.mp no).1
    rw [if_pos (sign_ne same), sign, sign, if_neg apart, if_neg same]
    have lt' : p < q ↔ x < y := by rw [lt, or_iff_left fun no => same no.1]
    simp only [lt']

theorem sign_cons {l m : List K} : sign (x :: l) (y :: m) = if sign x y ≠ 0 then sign x y else sign l m :=
  sign_lex List.cons_eq_cons List.cons_lt_cons_iff

theorem sign_pair {u v : L} : sign (toLex (x, u)) (toLex (y, v)) = if sign x y ≠ 0 then sign x y else sign u v :=
  sign_lex (by rw [EmbeddingLike.apply_eq_iff_eq, Prod.mk.injEq]) Prod.Lex.toLex_lt_toLex

/-- The text of a suffix, as numbers. -/
def codes (s : Str) : List Nat := s.map UInt8.toNat

theorem suffixCmp_eq : suffixCmp s t = sign (codes s) (codes t) := by
  induction s generalizing t with
  | nil =>
    cases t with
    | nil => rfl
    | cons d t => exact (if_neg (List.cons_ne_nil _ _).symm).trans (if_pos (List.nil_lt_cons _ _)) |>.symm
  | cons d s ih =>
    cases t with
    | nil => exact (if_neg (List.cons_ne_nil _ _)).trans (if_neg (List.not_lt_nil _)) |>.symm
    | cons e t =>
      rw [suffixCmp, codes, codes, List.map_cons, List.map_cons, sign_cons]
      by_cases same : d = e
      · subst same
        rw [if_pos rfl, sign_self, if_neg (not_not.mpr rfl)]
        exact ih
      · have other : d.toNat ≠ e.toNat := fun eq => same (UInt8.toNat_inj.mp eq)
        rw [if_neg same]
        by_cases less : d < e
        · have sooner : sign d.toNat e.toNat = -1 := by
            rw [sign, if_neg other, if_pos (UInt8.lt_iff_toNat_lt.mp less)]
          rw [if_pos less, sooner, if_pos (by decide)]
        · have later : sign d.toNat e.toNat = 1 := by
            rw [sign, if_neg other, if_neg (fun lt => less (UInt8.lt_iff_toNat_lt.mpr lt))]
          rw [if_neg less, later, if_pos (by decide)]

/-- A component: its number and its suffix. -/
def component (a : Str) : Nat ×ₗ List Nat :=
  toLex ((versionDigits a).1, codes ((versionDigits a).2.takeWhile (· ≠ dot)))

/-- What is behind a component. -/
def pastDot (a : Str) : Str := ((versionDigits a).2.dropWhile (· ≠ dot)).drop 1

/-- The first components; those that are missing count as zero. -/
def components : (n : Nat) → Str → List (Nat ×ₗ List Nat)
  | 0, _ => []
  | n + 1, a => component a :: components n (pastDot a)

theorem pastDot_length : (pastDot a).length ≤ a.length - 1 := by
  cases a with
  | nil => exact Nat.le_refl 0
  | cons d a =>
    unfold pastDot versionDigits
    rw [List.length_drop, List.length_cons]
    have rest := ((d :: a).dropWhile_sublist isDigit).length_le
    have back := (((d :: a).dropWhile isDigit).dropWhile_sublist (· ≠ dot)).length_le
    rw [List.length_cons] at rest
    dsimp only
    omega

/-- A pass goes on with what is behind the components, also where nothing is left. -/
theorem versionFrom_succ : versionFrom (n + 1) a b =
    if sign (component a) (component b) ≠ 0 then sign (component a) (component b)
    else versionFrom n (pastDot a) (pastDot b) := by
  rw [versionFrom]
  by_cases ended : a = [] ∧ b = []
  · obtain ⟨rfl, rfl⟩ := ended
    rw [if_pos ⟨rfl, rfl⟩, sign_self, if_neg (not_not.mpr rfl)]
    cases n with
    | zero => rfl
    | succ n => exact (if_pos ⟨rfl, rfl⟩).symm
  · rw [if_neg ended, component, component, sign_pair, ← suffixCmp_eq]
    by_cases same : (versionDigits a).1 = (versionDigits b).1
    · rw [if_neg (not_not.mpr same), same, sign_self, if_neg (not_not.mpr rfl)]
      rfl
    · have other := sign_ne same
      rw [if_pos same, if_pos other, if_pos other, sign, if_neg same]

theorem versionFrom_eq : versionFrom n a b = sign (components n a) (components n b) := by
  induction n generalizing a b with
  | zero => exact sign_self.symm
  | succ n ih => rw [versionFrom_succ, components, components, sign_cons, ih]

/-- The loop ends: more passes than there are characters change nothing. -/
theorem versionFrom_ends (enough : a.length + b.length ≤ n) : versionFrom n a b = repoVersionCmp a b := by
  unfold repoVersionCmp
  generalize isMost : a.length + b.length = most
  rw [isMost] at enough
  have reached : a.length + b.length ≤ most := isMost.le
  clear isMost
  induction most generalizing n a b with
  | zero =>
    rw [List.eq_nil_of_length_eq_zero (by omega : a.length = 0), List.eq_nil_of_length_eq_zero (by omega : b.length = 0)]
    cases n with
    | zero => rfl
    | succ n => exact if_pos ⟨rfl, rfl⟩
  | succ most ih =>
    obtain ⟨n, rfl⟩ : ∃ m, n = m + 1 := ⟨n - 1, by omega⟩
    have shorter := @pastDot_length a
    have shorter' := @pastDot_length b
    rw [versionFrom_succ, versionFrom_succ, ih (by omega) (by omega)]

/-- The versions are compared by their components, as many of them as either can have. -/
theorem repoVersionCmp_eq (enough : a.length + b.length ≤ n) :
    repoVersionCmp a b = sign (components n a) (components n b) := by
  rw [← versionFrom_ends enough, versionFrom_eq]

theorem repoVersionCmp_trans (ab : repoVersionCmp a b ≤ 0) (bc : repoVersionCmp b c ≤ 0) : repoVersionCmp a c ≤ 0 := by
  rw [@repoVersionCmp_eq _ _ (a.length + b.length + c.length) (by omega), sign_le] at ab bc ⊢
  exact ab.trans bc

theorem repoVersionCmp_swap : repoVersionCmp a b = -repoVersionCmp b a := by
  rw [@repoVersionCmp_eq a b _ (Nat.le_refl _), @repoVersionCmp_eq b a (a.length + b.length) (by omega)]
  exact sign_swap

/-- The comparison ends and is a total preorder; upgrades to newer versions never come back to one that was left. -/
theorem repoVersionCmp_preorder :
    (∀ a b n, a.length + b.length ≤ n → versionFrom n a b = repoVersionCmp a b) ∧
    (∀ a, repoVersionCmp a a = 0) ∧
    (∀ a b, repoVersionCmp a b = -repoVersionCmp b a) ∧
    (∀ a b c, repoVersionCmp a b ≤ 0 → repoVersionCmp b c ≤ 0 → repoVersionCmp a c ≤ 0) ∧
    ∀ versions : List Str, versions.IsChain (fun old new => 0 < repoVersionCmp new old) →
      versions.Pairwise fun old new => 0 < repoVersionCmp new old ∧ new ≠ old := by
  have self : ∀ a, repoVersionCmp a a = 0 := fun a => by
    rw [@repoVersionCmp_eq a a _ (Nat.le_refl _)]
    exact sign_self
  refine ⟨fun a b n => versionFrom_ends, self, fun a b => repoVersionCmp_swap, fun a b c => repoVersionCmp_trans,
    fun versions chain => ?_⟩
  have newer : IsTrans Str fun old new => 0 < repoVersionCmp new old := by
    constructor
    intro a b c ab bc
    by_contra back
    have ca := repoVersionCmp_trans (not_lt.mp back) (b := a) (c := b) (by rw [repoVersionCmp_swap]; omega)
    omega
  apply chain.pairwise.imp
  intro old new above
  refine ⟨above, fun same => ?_⟩
  rw [same, self] at above
  exact absurd above (by decide)

theorem repoVersionCmp_preorder_three : repoVersionCmp (ascii "2.1") (ascii "2.1.0-b") ≤ 0 :=
  repoVersionCmp_preorder.2.2.2.1 _ (ascii "2.1.0") _ (by decide) (by decide)

end Order

end RPCortex.Repo
