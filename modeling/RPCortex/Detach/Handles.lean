import Mathlib
import Mathlib.Tactic

/-! The table of detached runs, `detach.cpp`: a run is claimed, finishes and is released, and a package that
goes away is forgotten.  A handle packs the slot of a run and the generation of the slot. -/

namespace RPCortex.Detach

/-- `DETACH_MAX`. -/
def detachMax : Nat := 2

/-- `DETACH_LINE_MAX`. -/
def detachLineMax : Nat := 256

/-- A place in the table. -/
abbrev Slot : Type := Fin detachMax

/-- `DetachRun`; a pointer that is null is none.  The last two fields are history: the handle that was
returned for the run, and the owner that claimed it. -/
structure DetachRun where
  used : Bool
  done : Bool
  gen : Nat
  capturing : Bool
  owner : Option Nat
  pid : Int
  status : Int
  seq : Nat
  line : List UInt8
  pkgOut : Option Nat
  pkgCap : Nat
  handle : Int
  claimant : Option Nat

/-- A run after `memset`, with its generation. -/
def DetachRun.cleared (gen : Nat) : DetachRun where
  used := false
  done := false
  gen := gen
  capturing := false
  owner := none
  pid := 0
  status := 0
  seq := 0
  line := []
  pkgOut := none
  pkgCap := 0
  handle := 0
  claimant := none

/-- `g_runs`, `g_seq` and `g_capture_slot`. -/
structure Table where
  runs : Slot → DetachRun
  seq : Nat
  captureSlot : Option Slot

/-- The table after a start. -/
def Table.start : Table := ⟨fun _ => .cleared 0, 0, none⟩

namespace Table

variable (t : Table)

/-- One run is replaced. -/
def setRun (slot : Slot) (r : DetachRun) : Table := { t with runs := Function.update t.runs slot r }

/-- `handle_of`. -/
def handleOf (slot : Slot) (gen : Nat) : Int := gen * detachMax + slot

/-- `lookup`: the slot that a handle leads to. -/
def lookup (handle : Int) : Option Slot :=
  if handle < 0 then none
  else
    let slot : Slot := ⟨handle.toNat % detachMax, Nat.mod_lt _ (by decide)⟩
    let gen := handle.toNat / detachMax % 2 ^ 8
    if (t.runs slot).used = false ∨ (t.runs slot).gen ≠ gen then none else some slot

/-- `free_slot`. -/
def freeSlot (slot : Slot) : Table :=
  { t.setRun slot (.cleared (t.runs slot).gen) with
    captureSlot := if t.captureSlot = some slot then none else t.captureSlot }

/-- The finished run that was claimed first, among some slots. -/
def oldestOf : List Slot → Option Slot → Option Slot
  | [], oldest => oldest
  | slot :: slots, oldest =>
    if !(t.runs slot).done then oldestOf slots oldest
    else
      match oldest with
      | none => oldestOf slots (some slot)
      | some o => oldestOf slots (if (t.runs slot).seq < (t.runs o).seq then some slot else some o)

/-- `free_or_reclaimed`. -/
def freeOrReclaimed : Option (Slot × Table) :=
  match (List.finRange detachMax).find? fun slot => !(t.runs slot).used with
  | some slot => some (slot, t)
  | none => (t.oldestOf (List.finRange detachMax) none).map fun oldest => (oldest, t.freeSlot oldest)

/-- The capture buffer is taken from a run that has finished; there is no table when one that is still going
has it. -/
def takeCapture : Option Table :=
  match t.captureSlot with
  | none => some t
  | some held => if !(t.runs held).used || (t.runs held).done then some (t.freeSlot held) else none

/-- The run that is claimed in a slot. -/
def claimed (slot : Slot) (owner : Nat) (line : List UInt8) (pkgOut : Option Nat) (pkgCap : Nat) : Table :=
  let gen := ((t.runs slot).gen + 1) % 2 ^ 8
  let wantsOutput := pkgOut.isSome && pkgCap ≠ 0
  let t := { t with seq := (t.seq + 1) % 2 ^ 32 }
  let t := t.setRun slot {
    used := true
    done := false
    gen := gen
    capturing := wantsOutput
    owner := some owner
    pid := -1
    status := 0
    seq := t.seq
    line := line
    pkgOut := if wantsOutput then pkgOut else none
    pkgCap := if wantsOutput then pkgCap else 0
    handle := handleOf slot gen
    claimant := some owner }
  if wantsOutput then { t with captureSlot := some slot } else t

/-- `detach_claim`: the handle or -1. -/
def detachClaim (owner : Option Nat) (line : Option (List UInt8)) (pkgOut : Option Nat) (pkgCap : Nat) :
    Int × Table :=
  match owner, line with
  | some owner, some line =>
    if line = [] ∨ detachLineMax ≤ line.length then (-1, t)
    else
      match if pkgOut.isSome && pkgCap ≠ 0 then t.takeCapture else some t with
      | none => (-1, t)
      | some t =>
        match t.freeOrReclaimed with
        | none => (-1, t)
        | some r => (handleOf r.1 (((r.2.runs r.1).gen + 1) % 2 ^ 8), r.2.claimed r.1 owner line pkgOut pkgCap)
  | _, _ => (-1, t)

/-- `detach_of`: the slot of the run. -/
def detachOf (handle : Int) : Option Slot := t.lookup handle

/-- `detach_find`. -/
def detachFind (handle : Int) (owner : Option Nat) : Option Slot :=
  (t.lookup handle).filter fun slot => owner.isSome && (t.runs slot).owner = owner

/-- `detach_capture_buffer`: the run that has the buffer. -/
def detachCaptureBuffer (handle : Int) : Option Slot :=
  (t.lookup handle).filter fun slot => (t.runs slot).capturing && t.captureSlot = some slot

/-- `detach_finish`. -/
def detachFinish (handle status : Int) : Table :=
  match t.lookup handle with
  | none => t
  | some slot =>
    if (t.runs slot).done then t else t.setRun slot { t.runs slot with status, done := true }

/-- `detach_release`. -/
def detachRelease (handle : Int) : Table :=
  match t.lookup handle with
  | none => t
  | some slot => t.freeSlot slot

/-- `detach_forget_owner`, of the run in a slot. -/
def forgetSlot (owner : Nat) (slot : Slot) : Table :=
  if (t.runs slot).used = false ∨ (t.runs slot).owner ≠ some owner then t
  else
    let t := t.setRun slot { t.runs slot with owner := none, pkgOut := none, pkgCap := 0 }
    if (t.runs slot).done then t.freeSlot slot else t

/-- `detach_forget_owner`. -/
def detachForgetOwner (owner : Option Nat) : Table :=
  match owner with
  | none => t
  | some owner => (List.finRange detachMax).foldl (fun t slot => t.forgetSlot owner slot) t

end Table

/-- A call that changes the table. -/
inductive Call
  | claim (owner : Option Nat) (line : Option (List UInt8)) (pkgOut : Option Nat) (pkgCap : Nat)
  | finish (handle status : Int)
  | release (handle : Int)
  | forgetOwner (owner : Option Nat)

/-- The table after a call. -/
def Table.call (t : Table) : Call → Table
  | .claim owner line pkgOut pkgCap => (t.detachClaim owner line pkgOut pkgCap).2
  | .finish handle status => t.detachFinish handle status
  | .release handle => t.detachRelease handle
  | .forgetOwner owner => t.detachForgetOwner owner

/-- The table after some calls. -/
def Table.after (calls : List Call) : Table := calls.foldl Table.call .start

end RPCortex.Detach

/-! Handles as capabilities.  A handle leads to the run that it was returned for, and so does every number
that is the same modulo the generations of all slots: `lookup` cuts the generation to eight bits. -/

namespace RPCortex.Detach

/-- A run that is in use has the handle of its slot and generation, and only the package that claimed it
as owner; a run has an output buffer only while that package owns it. -/
structure DetachRun.Fits (slot : Slot) (r : DetachRun) : Prop where
  gen : r.gen < 2 ^ 8
  handle : r.used = true → r.handle = Table.handleOf slot r.gen
  out : r.pkgOut.isSome → r.used = true ∧ r.owner = r.claimant

/-- Every run fits its slot. -/
def Table.Fits (t : Table) : Prop := ∀ slot, (t.runs slot).Fits slot

variable {t : Table} {slot : Slot}

theorem fits_cleared {gen : Nat} (h : gen < 2 ^ 8) : (DetachRun.cleared gen).Fits slot where
  gen := h
  handle no := absurd no Bool.false_ne_true
  out no := absurd no Bool.false_ne_true

theorem runs_setRun_same {r : DetachRun} : (t.setRun slot r).runs slot = r := Function.update_self ..

theorem runs_setRun_ne {other : Slot} {r : DetachRun} (ne : other ≠ slot) :
    (t.setRun slot r).runs other = t.runs other := Function.update_of_ne ne ..

theorem Table.Fits.setRun (h : t.Fits) {r : DetachRun} (hr : r.Fits slot) : (t.setRun slot r).Fits := by
  intro other
  by_cases same : other = slot
  · subst same
    rw [runs_setRun_same]
    exact hr
  · rw [runs_setRun_ne same]
    exact h other

theorem Table.Fits.freeSlot (h : t.Fits) : (t.freeSlot slot).Fits :=
  h.setRun (fits_cleared (h slot).gen)

theorem Table.Fits.claimed (h : t.Fits) (owner : Nat) (line : List UInt8) (pkgOut : Option Nat)
    (pkgCap : Nat) : (t.claimed slot owner line pkgOut pkgCap).Fits := by
  have gen : ((t.runs slot).gen + 1) % 2 ^ 8 < 2 ^ 8 := Nat.mod_lt _ (by decide)
  unfold Table.claimed
  simp only
  split
  · exact Table.Fits.setRun (t := { t with seq := (t.seq + 1) % 2 ^ 32 }) h
      ⟨gen, fun _ => rfl, fun _ => ⟨rfl, rfl⟩⟩
  · exact Table.Fits.setRun (t := { t with seq := (t.seq + 1) % 2 ^ 32 }) h
      ⟨gen, fun _ => rfl, fun _ => ⟨rfl, rfl⟩⟩

theorem Table.Fits.takeCapture {t' : Table} (h : t.Fits) (taken : t.takeCapture = some t') : t'.Fits := by
  unfold Table.takeCapture at taken
  split at taken
  · obtain rfl := Option.some.inj taken
    exact h
  · split at taken
    · obtain rfl := Option.some.inj taken
      exact h.freeSlot
    · cases taken

theorem Table.Fits.freeOrReclaimed {r : Slot × Table} (h : t.Fits) (found : t.freeOrReclaimed = some r) :
    r.2.Fits := by
  unfold Table.freeOrReclaimed at found
  split at found
  · obtain rfl := Option.some.inj found
    exact h
  · obtain ⟨oldest, _, rfl⟩ := Option.map_eq_some_iff.mp found
    exact h.freeSlot

theorem Table.Fits.detachClaim (h : t.Fits) (owner : Option Nat) (line : Option (List UInt8))
    (pkgOut : Option Nat) (pkgCap : Nat) : (t.detachClaim owner line pkgOut pkgCap).2.Fits := by
  unfold Table.detachClaim
  split
  · split
    · exact h
    · split
      · exact h
      · rename_i t' taken
        have kept : t'.Fits := by
          split at taken
          · exact h.takeCapture taken
          · obtain rfl := Option.some.inj taken
            exact h
        split
        · exact kept
        · rename_i r found
          exact (kept.freeOrReclaimed found).claimed _ _ _ _
  · exact h

theorem Table.Fits.detachFinish (h : t.Fits) (handle status : Int) : (t.detachFinish handle status).Fits := by
  unfold Table.detachFinish
  split
  · exact h
  · rename_i slot _
    split
    · exact h
    · exact h.setRun ⟨(h slot).gen, (h slot).handle, (h slot).out⟩

theorem Table.Fits.detachRelease (h : t.Fits) (handle : Int) : (t.detachRelease handle).Fits := by
  unfold Table.detachRelease
  split
  · exact h
  · exact h.freeSlot

theorem Table.Fits.forgetSlot (h : t.Fits) (owner : Nat) : (t.forgetSlot owner slot).Fits := by
  have dropped : (t.setRun slot { t.runs slot with owner := none, pkgOut := none, pkgCap := 0 }).Fits :=
    h.setRun ⟨(h slot).gen, (h slot).handle, fun no => absurd no Bool.false_ne_true⟩
  unfold Table.forgetSlot
  split
  · exact h
  · simp only
    split
    · exact dropped.freeSlot
    · exact dropped

/-! ### Forgetting an owner -/

/-- The run in a slot has no output buffer of an owner. -/
def Table.Forgot (t : Table) (owner : Nat) (slot : Slot) : Prop :=
  (t.runs slot).claimant = some owner → (t.runs slot).pkgOut = none

theorem forgot_forgetSlot (h : t.Fits) (owner : Nat) : (t.forgetSlot owner slot).Forgot owner slot := by
  intro mine
  unfold Table.forgetSlot at mine ⊢
  by_cases other : (t.runs slot).used = false ∨ (t.runs slot).owner ≠ some owner
  · rw [if_pos other] at mine ⊢
    by_contra some_
    obtain ⟨used, owned⟩ := (h slot).out (Option.isSome_iff_ne_none.mpr some_)
    rcases other with unused | foreign
    · rw [used] at unused
      cases unused
    · exact foreign (owned.trans mine)
  · rw [if_neg other]
    simp only
    split
    · show (((t.setRun slot _).setRun slot _).runs slot).pkgOut = none
      rw [runs_setRun_same]
      rfl
    · rw [runs_setRun_same]

theorem forgetSlot_other {owner : Nat} {other : Slot} (ne : other ≠ slot) :
    (t.forgetSlot owner slot).runs other = t.runs other := by
  unfold Table.forgetSlot
  split
  · rfl
  · simp only
    split
    · show ((t.setRun slot _).setRun slot _).runs other = t.runs other
      rw [runs_setRun_ne ne, runs_setRun_ne ne]
    · rw [runs_setRun_ne ne]

theorem fits_forget (h : t.Fits) (owner : Nat) (slots : List Slot) :
    (slots.foldl (fun t slot => t.forgetSlot owner slot) t).Fits := by
  induction slots generalizing t with
  | nil => exact h
  | cons slot slots ih => exact ih (h.forgetSlot owner)

theorem forgot_forget (h : t.Fits) (owner : Nat) {slots : List Slot} (distinct : slots.Nodup)
    (there : slot ∈ slots ∨ t.Forgot owner slot) :
    (slots.foldl (fun t slot => t.forgetSlot owner slot) t).Forgot owner slot := by
  induction slots generalizing t with
  | nil => exact there.resolve_left List.not_mem_nil
  | cons first slots ih =>
    obtain ⟨fresh, distinct⟩ := List.nodup_cons.mp distinct
    refine ih (h.forgetSlot owner) distinct ?_
    by_cases same : slot = first
    · subst same
      exact Or.inr (forgot_forgetSlot h owner)
    · refine there.imp (fun mem => (List.mem_cons.mp mem).resolve_left same) fun forgot => ?_
      rw [Table.Forgot, forgetSlot_other same]
      exact forgot

/-! ### Every sequence of calls -/

theorem Table.Fits.call (h : t.Fits) (c : Call) : (t.call c).Fits := by
  cases c with
  | claim owner line pkgOut pkgCap => exact h.detachClaim owner line pkgOut pkgCap
  | finish handle status => exact h.detachFinish handle status
  | release handle => exact h.detachRelease handle
  | forgetOwner owner =>
    cases owner with
    | none => exact h
    | some owner => exact fits_forget h owner _

theorem fits_foldl (h : t.Fits) (calls : List Call) : (calls.foldl Table.call t).Fits := by
  induction calls generalizing t with
  | nil => exact h
  | cons c calls ih => exact ih (h.call c)

theorem fits_after (calls : List Call) : (Table.after calls).Fits :=
  fits_foldl (fun _ => fits_cleared (by decide)) calls

/-- A number leads to the run whose handle it is modulo all generations of all slots. -/
theorem lookup_eq_some (h : t.Fits) {handle : Int} : t.lookup handle = some slot ↔
    0 ≤ handle ∧ (t.runs slot).used = true ∧ (t.runs slot).handle = handle % (2 ^ 8 * detachMax) := by
  unfold Table.lookup
  by_cases negative : handle < 0
  · rw [if_pos negative]
    exact ⟨(fun no => by cases no), fun h => absurd h.1 (by omega)⟩
  obtain ⟨n, rfl⟩ := Int.eq_ofNat_of_zero_le (not_lt.mp negative)
  rw [if_neg negative]
  have fits := (h slot).gen
  have small := slot.isLt
  simp only [Int.toNat_natCast]
  constructor
  · intro found
    split at found
    · cases found
    · rename_i matches_
      obtain rfl := Option.some.inj found
      obtain ⟨used, gen⟩ := not_or.mp matches_
      have used := (Bool.not_eq_false _).mp used
      refine ⟨by omega, used, ?_⟩
      rw [(h _).handle used, Table.handleOf, not_not.mp gen]
      simp only [detachMax]
      omega
  · rintro ⟨_, used, same⟩
    rw [(h slot).handle used, Table.handleOf] at same
    have place : (⟨n % detachMax, Nat.mod_lt _ (by decide)⟩ : Slot) = slot := by
      refine Fin.ext (?_ : n % detachMax = slot)
      simp only [detachMax] at same small ⊢
      omega
    rw [place, if_neg]
    refine not_or.mpr ⟨by simp [used], not_not.mpr ?_⟩
    simp only [detachMax] at same small ⊢
    omega

/-- What is looked up by a number is the run that the number was returned for, exactly when the number is
not a handle in use with a generation that is too large; the buffer goes to one run at most; and nothing
refers to the buffer of an owner that is forgotten. -/
theorem handles_after (calls : List Call) :
    (∀ h : Int, (∀ slot owner, (Table.after calls).detachOf h = some slot ∨
        (Table.after calls).detachFind h owner = some slot → ((Table.after calls).runs slot).handle = h) ↔
      h < 2 ^ 8 * detachMax ∨ ∀ slot, ((Table.after calls).runs slot).used = true →
        ((Table.after calls).runs slot).handle ≠ h % (2 ^ 8 * detachMax)) ∧
    (∀ h h' : Int, ∀ slot slot', (Table.after calls).detachCaptureBuffer h = some slot →
      (Table.after calls).detachCaptureBuffer h' = some slot' → slot = slot') ∧
    ∀ owner slot, (((Table.after calls).detachForgetOwner (some owner)).runs slot).claimant = some owner →
      (((Table.after calls).detachForgetOwner (some owner)).runs slot).pkgOut = none := by
  have fits := fits_after calls
  generalize Table.after calls = t at fits ⊢
  refine ⟨fun h => ⟨fun exact_ => ?_, fun fine slot owner found => ?_⟩, fun h h' slot slot' has has' => ?_, ?_⟩
  · by_contra neither
    obtain ⟨large, some_⟩ := not_or.mp neither
    obtain ⟨slot, used⟩ := not_forall.mp some_
    obtain ⟨used, same⟩ := Classical.not_imp.mp used
    have positive : 0 ≤ h := by
      simp only [detachMax] at large
      omega
    have found := (lookup_eq_some fits).mpr ⟨positive, used, not_not.mp same⟩
    have self := exact_ slot none (Or.inl found)
    have cut := Int.emod_lt_of_pos h (show (0 : Int) < 2 ^ 8 * detachMax by decide)
    rw [← not_not.mp same, self] at cut
    exact large cut
  · have led : t.lookup h = some slot := by
      rcases found with of | find
      · exact of
      · exact (Option.filter_eq_some_iff.mp find).1
    obtain ⟨positive, used, same⟩ := (lookup_eq_some fits).mp led
    rcases fine with small | none_
    · rw [same]
      exact Int.emod_eq_of_lt positive small
    · exact absurd same (none_ slot used)
  · have here := (Option.filter_eq_some_iff.mp has).2
    have there := (Option.filter_eq_some_iff.mp has').2
    rw [Bool.and_eq_true, decide_eq_true_eq] at here there
    exact Option.some.inj (here.2.symm.trans there.2)
  · exact fun owner slot => forgot_forget fits owner (List.nodup_finRange _) (Or.inl (List.mem_finRange slot))

theorem not_all_handles_exact : ¬∀ (calls : List Call) (h : Int) (slot : Slot),
    (Table.after calls).detachOf h = some slot → ((Table.after calls).runs slot).handle = h := by
  intro exact_
  have led := exact_ [.claim (some 1) (some [0x6C]) none 0] 514 ⟨0, by decide⟩ (by decide)
  exact absurd led (by decide)

end RPCortex.Detach
