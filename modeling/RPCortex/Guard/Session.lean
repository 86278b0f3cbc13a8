import RPCortex.Guard.Storage

/-! `fsguard.cpp`: what the session of a non-admin may read and change, by two checks of a path.
The checks of the firmware are `protect_secret` and `protect_reaches`. -/

namespace RPCortex.Guard

open Lib RPCortex.Path

/-- Who is logged in, and whether `users_is_admin` says it is an admin. -/
structure Session where
  user : Option (List UInt8)
  admin : Bool

/-- `fs_session_restricted`. -/
def fsSessionRestricted (s : Session) : Bool :=
  match s.user with
  | none => false
  | some u => u ≠ [] && !s.admin

/-- The two checks of a path. -/
structure Checks where
  secret : List UInt8 → Bool
  reaches : List UInt8 → Bool

/-- The checks of the firmware. -/
def firmwareChecks : Checks := ⟨protectSecret, protectReaches⟩

/-- `fs_may_read`. -/
def fsMayRead (c : Checks) (s : Session) (path : List UInt8) : Bool :=
  !fsSessionRestricted s || !c.secret path

/-- `fs_may_change`. -/
def fsMayChange (c : Checks) (s : Session) (path : List UInt8) : Bool :=
  !fsSessionRestricted s || !c.reaches path

/-- A wildcard in the directory that holds the protected files, or in the root. -/
def NamesWildcard (p : List UInt8) : Prop := wildcardReaches ((normalForm p).map lower) = true

instance (p : List UInt8) : Decidable (NamesWildcard p) := inferInstanceAs (Decidable (_ = _))

/-- Checks that find exactly the paths they are about. -/
structure Checks.Exact (c : Checks) : Prop where
  secret : ∀ p, c.secret p = true ↔ NamesSecret p
  reaches : ∀ p, c.reaches p = true ↔ NamesHolder p ∨ NamesWildcard p

/-- Checks that compute the normal form without bounds. -/
def exactChecks : Checks := ⟨fun p => NamesSecret p, fun p => NamesHolder p ∨ NamesWildcard p⟩

theorem exactChecks_exact : exactChecks.Exact where
  secret p := by simp [exactChecks]
  reaches p := by simp [exactChecks]

variable {c : Checks} {s : Session} {p q data : List UInt8} {off cap : Nat}

/-! ### What a check rules out -/

theorem not_secret (restricted : fsSessionRestricted s = true) (h : fsMayRead c s p = true) :
    c.secret p = false := by simpa [fsMayRead, restricted] using h

theorem not_reaches (restricted : fsSessionRestricted s = true) (h : fsMayChange c s p = true) :
    c.reaches p = false := by simpa [fsMayChange, restricted] using h

/-- A path that is not a protected file can be read. -/
theorem harmless_read (h : ¬NamesSecret p) : (Op.read p off cap).Harmless :=
  fun _ hs eq => h (namesSecret_of_mem (eq ▸ hs))

section Change

variable (h : ¬NamesHolder p)
include h

theorem not_under {s : List (List UInt8)} (hs : s ∈ protectedPaths) : ¬normal p <+: s :=
  fun pre => h (namesHolder_of_under hs pre)

theorem normal_ne {s : List (List UInt8)} (hs : s ∈ protectedPaths) : normal p ≠ s :=
  fun eq => not_under h hs (eq ▸ List.prefix_refl _)

theorem harmless_write : (Op.write p data).Harmless := fun _ hs => normal_ne h hs

theorem harmless_append : (Op.append p data).Harmless := fun _ hs => normal_ne h hs

theorem harmless_remove : (Op.remove p).Harmless := fun _ hs => normal_ne h hs

end Change

theorem harmless_copy (hp : ¬NamesSecret p) (hq : ¬NamesHolder q) : (Op.copy p q).Harmless :=
  fun _ hs => ⟨fun eq => hp (namesSecret_of_mem (eq ▸ hs)), normal_ne hq hs⟩

theorem harmless_rename (hp : ¬NamesHolder p) (hq : ¬NamesHolder q) : (Op.rename p q).Harmless :=
  fun _ hs => ⟨not_under hp hs, not_under hq hs⟩

theorem harmless_stat : (Op.stat p).Harmless := fun _ _ => trivial

theorem harmless_walk : (Op.walk p).Harmless := fun _ _ => trivial

end RPCortex.Guard
