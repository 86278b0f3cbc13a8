import RPCortex.Card.Fatro

/-! Reading a card ends and stays on its volume, whatever the card answers.  Every operation is proved
with the number of sectors that it asks for.  The table and the root directory are on the volume when they
begin in front of the data, which a boot sector can prevent. -/

namespace RPCortex.Card

open Lib Fat12

/-- An answer of the card; the sectors that were asked for are counted. -/
def counting (n : Nat) (_ : Request) (answer : Option Sector) : Option Sector × Nat := (answer, n + 1)

/-- A mounted volume is read where its boot sector says that it is. -/
def Request.Inside (r : Request) : Prop :=
  ∀ f, r.volume = some f → r.lba < f.firstData + f.clusters * f.spc

/-- The table and the root directory begin in front of the data. -/
def FatRo.Ordered (f : FatRo) : Prop := f.firstFat ≤ f.firstData ∧ f.firstRoot ≤ f.firstData

/-- The sectors of one table that a boot sector names. -/
def fatSectorsOf (b : List UInt8) : Nat := if rd16 b 22 = 0 then rd32 b 36 else rd16 b 22

/-- Where the tables, the root directory and the data begin by the fields of a boot sector at `base`: behind the
reserved sectors, behind the tables, and behind the root directory. -/
def tablesAt (base : Nat) (b : List UInt8) : Nat := base + rd16 b 14

def rootAt (base : Nat) (b : List UInt8) : Nat := tablesAt base b + fatSectorsOf b * (b.getD 16 0).toNat

def dataAt (base : Nat) (b : List UInt8) : Nat := rootAt base b + rootSectorsOf (rd16 b 17)

/-- A volume is ordered exactly when the fields of its boot sector are, in numbers of 32 bits. -/
theorem geometry_ordered {base : Nat} {b : List UInt8} {f : FatRo} (mounted : geometry base b = some f) :
    f.Ordered ↔ tablesAt base b % 2 ^ 32 ≤ dataAt base b % 2 ^ 32 ∧
      rootAt base b % 2 ^ 32 ≤ dataAt base b % 2 ^ 32 := by
  simp only [geometry, Option.ite_none_left_eq_some, Option.dite_none_right_eq_some, Option.some.injEq] at mounted
  obtain ⟨-, -, -, rfl⟩ := mounted
  have root : ((base + rd16 b 14) % 2 ^ 32 + fatSectorsOf b * (b.getD 16 0).toNat) % 2 ^ 32 =
      rootAt base b % 2 ^ 32 := Nat.mod_add_mod _ _ _
  have data : (rootAt base b % 2 ^ 32 + rootSectorsOf (rd16 b 17)) % 2 ^ 32 = dataAt base b % 2 ^ 32 :=
    Nat.mod_add_mod _ _ _
  rw [← data, ← root]
  exact Iff.rfl

/-- Fields that do not pass 2^32 are in order. -/
theorem ordered_of_fits {base : Nat} {b : List UInt8} {f : FatRo} (mounted : geometry base b = some f)
    (fits : dataAt base b < 2 ^ 32) : f.Ordered := by
  rw [geometry_ordered mounted]
  unfold dataAt rootAt at fits ⊢
  omega

/-- The volume is read inside when it is ordered. -/
def Request.Stays (r : Request) : Prop := ∀ f, r.volume = some f → f.Ordered → r.Inside

/-- Whatever the card answers, the sectors stay and the end is as `Q` says. -/
abbrev Does {α : Type} (p : Reads α) (n : Nat) (Q : α → Nat → Prop) : Prop :=
  p.wp counting (fun _ r => r.Stays) Q n

variable {f : FatRo} {k : Cache} {n : Nat}

theorem read_does {lba : Nat} {Q : Option Sector → Nat → Prop}
    (inside : f.Ordered → lba % 2 ^ 32 < f.firstData + f.clusters * f.spc)
    (h : ∀ answer, Q answer (n + 1)) : Does (read (some f) lba) n Q := by
  refine Prog.wp_call.mpr ⟨?_, h⟩
  rintro g same ordered g' same'
  obtain rfl := Option.some.inj same
  obtain rfl := Option.some.inj same'
  exact inside ordered

theorem probe_does {lba : Nat} {Q : Option Sector → Nat → Prop} (h : ∀ answer, Q answer (n + 1)) :
    Does (read none lba) n Q :=
  Prog.wp_call.mpr ⟨(fun _ no => by cases no), h⟩

/-! ### The table -/

theorem fatByte_does {off : Nat} (h : off / 512 < f.clusters) :
    Does (fatByte f k off) n fun _ m => m ≤ n + 1 := by
  have wide : f.clusters ≤ f.clusters * f.spc := Nat.le_mul_of_pos_right _ f.spc_pos
  refine Prog.wp_ite (fun _ => ?_) fun _ => Prog.wp_pure.mpr (Nat.le_succ n)
  refine Prog.wp_bind.mpr (read_does (fun ordered => ?_) fun answer => ?_)
  · have front := ordered.1
    have cut := Nat.mod_le ((f.firstFat + off / 512) % 2 ^ 32) (2 ^ 32)
    have cut' := Nat.mod_le (f.firstFat + off / 512) (2 ^ 32)
    omega
  · cases answer with
    | none => exact Nat.le_refl _
    | some b => exact Nat.le_refl _

theorem fatBytes_does {c off : Nat} (h : (off + c - 1) / 512 < f.clusters) :
    Does (fatBytes f c k off) n fun _ m => m ≤ n + c := by
  induction c generalizing k n off with
  | zero => exact Nat.le_refl _
  | succ c ih =>
    refine (fatByte_does (by omega)).bind fun r m counted => ?_
    cases byte : r.1 with
    | none => exact (show m ≤ n + (c + 1) by omega)
    | some b =>
      cases c with
      | zero => exact (show m ≤ n + 1 by omega)
      | succ c =>
        have more : Does (fatBytes f (c + 1) r.2 (off + 1)) m fun _ m' => m' ≤ m + (c + 1) := ih (by omega)
        exact more.bind fun rest m' counted' => Prog.wp_pure.mpr (show m' ≤ n + (c + 1 + 1) by omega)

theorem beyond_eq_false {c : Nat} (h : f.beyond c = false) : 2 ≤ c ∧ c ≤ f.clusters + 1 := by
  have cut := Nat.mod_le (f.clusters + 1) (2 ^ 32)
  simp only [FatRo.beyond, Bool.or_eq_false_iff, decide_eq_false_iff_not] at h
  omega

/-- The bytes of an entry lie in the first sectors of the table. -/
theorem entryAt_inside {c : Nat} (there : f.beyond c = false) : (entryAt f.kind c).1 ≤ 4 ∧
    ((entryAt f.kind c).2 + (entryAt f.kind c).1 - 1) / 512 < f.clusters := by
  obtain ⟨_, last⟩ := beyond_eq_false there
  have positive := f.clusters_pos
  cases f.kind with
  | fat12 =>
    have cut := Nat.mod_le (c + c / 2) (2 ^ 32)
    exact ⟨show 2 ≤ 4 by decide, show ((c + c / 2) % 2 ^ 32 + 2 - 1) / 512 < f.clusters by omega⟩
  | fat16 =>
    have cut := Nat.mod_le (c * 2) (2 ^ 32)
    exact ⟨show 2 ≤ 4 by decide, show (c * 2 % 2 ^ 32 + 2 - 1) / 512 < f.clusters by omega⟩
  | fat32 =>
    have cut := Nat.mod_le (c * 4) (2 ^ 32)
    exact ⟨Nat.le_refl 4, show (c * 4 % 2 ^ 32 + 4 - 1) / 512 < f.clusters by omega⟩

theorem fatNext_does {c : Nat} : Does (fatNext f k c) n fun _ m => m ≤ n + 4 := by
  refine Prog.wp_ite (fun _ => Prog.wp_pure.mpr (Nat.le_add_right n 4)) fun there => ?_
  have entry := entryAt_inside (Bool.eq_false_iff.mpr there)
  refine (fatBytes_does entry.2).bind fun r m counted => Prog.wp_pure.mpr ?_
  exact Nat.le_trans counted (Nat.add_le_add_left entry.1 n)

/-! ### Directories -/

variable {σ : Type} {fn : RawFn σ} {l : LongName} {s : σ}

theorem walkSectors_does {left lba : Nat}
    (inside : f.Ordered → lba + left ≤ f.firstData + f.clusters * f.spc) :
    Does (walkSectors fn f left lba l s) n fun _ m => m ≤ n + left := by
  induction left generalizing lba l s n with
  | zero => exact Nat.le_refl _
  | succ left ih =>
    refine Prog.wp_bind.mpr (read_does (fun ordered => ?_) fun answer => ?_)
    · have cut := Nat.mod_le lba (2 ^ 32)
      have here := inside ordered
      omega
    · cases answer with
      | none => exact (show n + 1 ≤ n + (left + 1) by omega)
      | some b =>
        refine Prog.wp_ite (fun _ => Prog.wp_pure.mpr (by omega)) fun _ => ?_
        refine (ih fun ordered => ?_).mono fun _ m counted => (show m ≤ n + (left + 1) by omega)
        have here := inside ordered
        omega

/-- A cluster is on the volume. -/
theorem clusterLba_le {c : Nat} (there : f.beyond c = false) {i : Nat} (h : i ≤ f.spc) :
    clusterLba f c + i ≤ f.firstData + f.clusters * f.spc := by
  obtain ⟨first, last⟩ := beyond_eq_false there
  have cut := Nat.mod_le (f.firstData + (c - 2) * f.spc) (2 ^ 32)
  have room : (c - 2 + 1) * f.spc ≤ f.clusters * f.spc := Nat.mul_le_mul_right _ (by omega)
  rw [Nat.add_mul, Nat.one_mul] at room
  rw [clusterLba]
  omega

theorem walkChain_does {budget c : Nat} : Does (walkChain fn f budget c l s k) n fun _ m =>
    m ≤ n + (f.spc + budget * (f.spc + 4)) := by
  induction budget generalizing c l s k n with
  | zero =>
    rw [walkChain]
    refine Prog.wp_ite (fun _ => Prog.wp_pure.mpr (by omega)) fun there => ?_
    have there := Bool.eq_false_iff.mpr there
    refine (walkSectors_does fun _ => clusterLba_le there (Nat.le_refl _)).bind fun answer m counted => ?_
    cases answer with
    | none => exact (show m ≤ n + (f.spc + 0 * (f.spc + 4)) by omega)
    | some w =>
      refine Prog.wp_ite (fun _ => Prog.wp_pure.mpr (by omega)) fun _ => Prog.wp_pure.mpr (by omega)
  | succ budget ih =>
    have more : (budget + 1) * (f.spc + 4) = budget * (f.spc + 4) + (f.spc + 4) := Nat.succ_mul _ _
    rw [walkChain]
    refine Prog.wp_ite (fun _ => Prog.wp_pure.mpr (by omega)) fun there => ?_
    have there := Bool.eq_false_iff.mpr there
    refine (walkSectors_does fun _ => clusterLba_le there (Nat.le_refl _)).bind fun answer m counted => ?_
    cases answer with
    | none => exact (show m ≤ n + (f.spc + (budget + 1) * (f.spc + 4)) by omega)
    | some w =>
      refine Prog.wp_ite (fun _ => Prog.wp_pure.mpr (by omega)) fun _ => ?_
      refine (fatNext_does).bind fun next m' counted' => ih.mono fun _ m'' counted'' => ?_
      omega

/-- The most sectors that the walk of a directory asks for. -/
def FatRo.walkBound (f : FatRo) : Nat :=
  rootSectorsOf f.rootEntries + (f.spc + (f.clusters + 2) * (f.spc + 4))

theorem root_inside (ordered : f.Ordered) :
    f.firstRoot + rootSectorsOf f.rootEntries ≤ f.firstData + f.clusters * f.spc := by
  have behind := ordered.2
  have data := f.firstData_eq
  have few : rootSectorsOf f.rootEntries < 2 ^ 32 := by
    have := f.rootEntries_lt
    unfold rootSectorsOf
    omega
  omega

theorem dirRaw_does {start : Nat} {fixedRoot : Bool} : Does (dirRaw fn f k start fixedRoot s) n fun _ m =>
    m ≤ n + f.walkBound := by
  unfold FatRo.walkBound
  refine Prog.wp_ite (fun _ => ?_) fun _ => ?_
  · refine (walkSectors_does root_inside).bind fun answer m counted => Prog.wp_pure.mpr ?_
    omega
  · refine (walkChain_does).mono fun _ m counted => ?_
    have budget : (f.clusters + 2) % 2 ^ 32 * (f.spc + 4) ≤ (f.clusters + 2) * (f.spc + 4) :=
      Nat.mul_le_mul_right _ (Nat.mod_le _ _)
    omega

/-! ### Mounting -/

theorem findRootLabel_does : Does (findRootLabel f) n fun v m => m ≤ n + v.1.walkBound := by
  refine (dirRaw_does).bind fun r m counted => ?_
  cases r.1 with
  | none => exact counted
  | some found =>
    cases found with
    | none => exact counted
    | some label => exact counted

/-- What a mount asks for: some sectors that it probes, and the root directory of what it finds. -/
def mountBound (probes : Nat) : Option (FatRo × Cache) → Nat
  | none => probes
  | some v => probes + v.1.walkBound

theorem mountAt_does {base : Nat} : Does (mountAt base) n fun r m => m ≤ n + mountBound 1 r := by
  refine Prog.wp_bind.mpr (probe_does fun answer => ?_)
  cases answer.bind fun b => geometry base b.1 with
  | none => exact Nat.le_refl _
  | some f =>
    refine (findRootLabel_does).bind fun v m counted => Prog.wp_pure.mpr ?_
    simp only [mountBound]
    omega

theorem mountFirst_does {l : List Nat} : Does (mountFirst l) n fun r m => m ≤ n + mountBound l.length r := by
  induction l generalizing n with
  | nil => exact Nat.le_refl _
  | cons start rest ih =>
    have more {r : Option (FatRo × Cache)} {m p : Nat} (counted : m ≤ p + mountBound rest.length r)
        (le : p ≤ n + 1) : m ≤ n + mountBound (rest.length + 1) r := by
      cases r with
      | none =>
        simp only [mountBound] at counted ⊢
        omega
      | some v =>
        simp only [mountBound] at counted ⊢
        omega
    refine Prog.wp_ite (fun _ => ih.mono fun r m counted => more counted (Nat.le_succ n)) fun _ => ?_
    refine (mountAt_does).bind fun r m counted => ?_
    cases r with
    | none => exact ih.mono fun r m' counted' => more counted' counted
    | some v =>
      refine Prog.wp_pure.mpr ?_
      simp only [mountBound, List.length_cons] at counted ⊢
      omega

theorem fatroMount_does : Does fatroMount n fun r m => m ≤ n + mountBound 5 r := by
  have weaken {r : Option (FatRo × Cache)} {m p : Nat} (few : p ≤ 4)
      (counted : m ≤ n + 1 + mountBound p r) : m ≤ n + mountBound 5 r := by
    cases r with
    | none =>
      simp only [mountBound] at counted ⊢
      omega
    | some v =>
      simp only [mountBound] at counted ⊢
      omega
  refine Prog.wp_bind.mpr (probe_does fun answer => ?_)
  cases answer with
  | none => exact (show n + 1 ≤ n + 5 by omega)
  | some b =>
    refine Prog.wp_ite (fun _ => Prog.wp_pure.mpr (show n + 1 ≤ n + 5 by omega)) fun _ => ?_
    refine Prog.wp_ite (fun _ => ?_) fun _ => ?_
    · exact (mountAt_does).mono fun r m counted => weaken (by omega) counted
    · refine Prog.wp_ite (fun _ => Prog.wp_pure.mpr (show n + 1 ≤ n + 5 by omega)) fun _ => ?_
      exact (mountFirst_does).mono fun r m counted => weaken (Nat.le_of_eq (by simp [starts])) counted

/-! ### Paths -/

theorem resolveFrom_does {comps : List (List UInt8)} {out : FatRoEntry} :
    Does (resolveFrom f comps out k) n fun _ m => m ≤ n + comps.length * f.walkBound := by
  induction comps generalizing out k n with
  | nil => exact Nat.le_add_right _ _
  | cons comp comps ih =>
    rw [List.length_cons, Nat.succ_mul]
    refine Prog.wp_ite (fun _ => Prog.wp_pure.mpr (by omega)) fun _ => ?_
    refine (dirRaw_does).bind fun r m counted => ?_
    cases r.1 with
    | none => exact Prog.wp_pure.mpr (by omega)
    | some found =>
      cases found with
      | none => exact Prog.wp_pure.mpr (by omega)
      | some e => exact ih.mono fun _ m' counted' => by omega

theorem fatroList_does {path : List UInt8} : Does (fatroList f k path) n fun _ m =>
    m ≤ n + ((components path).length + 1) * f.walkBound := by
  rw [Nat.succ_mul]
  refine (resolveFrom_does).bind fun r m counted => ?_
  cases r.1 with
  | none => exact Prog.wp_pure.mpr (by omega)
  | some dir =>
    refine Prog.wp_ite (fun _ => Prog.wp_pure.mpr (by omega)) fun _ => ?_
    exact (dirRaw_does).mono fun _ m' counted' => by omega

/-! ### Files -/

theorem csize_pos (f : FatRo) : 0 < f.csize := Nat.mul_pos f.spc_pos (by decide)

/-- The cluster that is found is that of `off`. -/
theorem seek_does {off budget c at_ : Nat} (front : at_ ≤ off) :
    Does (seek f off budget c at_ k) n fun r m => m ≤ n + (budget + 1) * 4 ∧
      ∀ place, r.1 = some place → place.2 ≤ off ∧ off < place.2 + f.csize := by
  have found : ¬(at_ + f.csize) % 2 ^ 32 ≤ off → off < at_ + f.csize := fun no =>
    Nat.lt_of_lt_of_le (Nat.lt_of_not_le no) (Nat.mod_le _ _)
  induction budget generalizing c at_ k n with
  | zero =>
    refine Prog.wp_ite (fun _ => ?_) fun no => Prog.wp_pure.mpr ⟨by omega, ?_⟩
    · refine (fatNext_does).bind fun next m counted => ?_
      refine Prog.wp_ite (fun _ => Prog.wp_pure.mpr ⟨by omega, ?_⟩) fun _ => Prog.wp_pure.mpr ⟨by omega, ?_⟩
      · exact fun _ no => by cases no
      · exact fun _ no => by cases no
    · rintro place same
      obtain rfl := Option.some.inj same
      exact ⟨front, found no⟩
  | succ budget ih =>
    refine Prog.wp_ite (fun on => ?_) fun no => Prog.wp_pure.mpr ⟨by omega, ?_⟩
    · refine (fatNext_does).bind fun next m counted => ?_
      refine Prog.wp_ite (fun _ => Prog.wp_pure.mpr ⟨by omega, ?_⟩) fun _ => ?_
      · exact fun _ no => by cases no
      · have later := ih (k := next.2) (n := m) (c := next.1) on fun no =>
          Nat.lt_of_lt_of_le (Nat.lt_of_not_le no) (Nat.mod_le _ _)
        exact later.mono fun r m' h => ⟨by omega, h.2⟩
    · rintro place same
      obtain rfl := Option.some.inj same
      exact ⟨front, found no⟩

theorem sub32_eq {a b : Nat} (le : b ≤ a) (small : a < 2 ^ 32) : sub32 a b = a - b := by
  unfold sub32
  omega

/-- A copy leaves what is behind the bytes that were asked for. -/
def Copied.Within (r : Copied) (buf : Nat → UInt8) (len : Nat) : Prop :=
  r.done ≤ len ∧ ∀ i, len ≤ i → r.buf i = buf i

theorem copyFrom_succ {off len fuel done c at_ : Nat} {buf : Nat → UInt8} {cursor : Option FatRoCursor} :
    copyFrom f off len (fuel + 1) done c at_ buf cursor k =
      if len ≤ done ∨ f.beyond c then pure ⟨done, buf, cursor, k⟩
      else
        read (some f) (clusterLba f c + sub32 (off + done) at_ / 512) >>= fun answer =>
          match answer with
          | none => pure ⟨done, buf, cursor, k⟩
          | some b =>
            let n := min (512 - sub32 (off + done) at_ % 512) (len - done)
            let buf := store buf done ((b.1.drop (sub32 (off + done) at_ % 512)).take n)
            if f.csize ≤ sub32 (off + done) at_ + n then
              fatNext f k c >>= fun next =>
                copyFrom f off len fuel (done + n) next.1 ((at_ + f.csize) % 2 ^ 32) buf
                  (cursor.map fun c => { c with cluster := next.1, at_ := (at_ + f.csize) % 2 ^ 32 }) next.2
            else copyFrom f off len fuel (done + n) c at_ buf cursor k :=
  rfl

theorem copyFrom_does {off len fuel done c at_ : Nat} {buf : Nat → UInt8} {cursor : Option FatRoCursor}
    (small : off + len < 2 ^ 32) (part : done ≤ len)
    (here : done < len → at_ ≤ off + done ∧ off + done < at_ + f.csize) :
    Does (copyFrom f off len fuel done c at_ buf cursor k) n fun r m =>
      r.Within buf len ∧ m ≤ n + fuel * 5 := by
  induction fuel generalizing done c at_ buf cursor k n with
  | zero => exact ⟨⟨part, fun _ _ => rfl⟩, Nat.le_add_right _ _⟩
  | succ fuel ih =>
    rw [copyFrom_succ]
    refine Prog.wp_ite (fun _ => Prog.wp_pure.mpr ⟨⟨part, fun _ _ => rfl⟩, Nat.le_add_right _ _⟩) fun more => ?_
    obtain ⟨left, there⟩ := not_or.mp more
    have left := Nat.lt_of_not_le left
    have there := Bool.eq_false_iff.mpr there
    obtain ⟨front, behind⟩ := here left
    have place : sub32 (off + done) at_ = off + done - at_ := sub32_eq front (by omega)
    have sector : sub32 (off + done) at_ / 512 < f.spc := by
      rw [place]
      have : off + done - at_ < f.spc * 512 := by
        unfold FatRo.csize at behind
        omega
      exact Nat.div_lt_of_lt_mul (by omega)
    refine Prog.wp_bind.mpr (read_does (fun _ => ?_) fun answer => ?_)
    · have cut := Nat.mod_le (clusterLba f c + sub32 (off + done) at_ / 512) (2 ^ 32)
      have inside := clusterLba_le there sector
      omega
    cases answer with
    | none => exact ⟨⟨part, fun _ _ => rfl⟩, show n + 1 ≤ n + (fuel + 1) * 5 by omega⟩
    | some b =>
      generalize inCluster_eq : sub32 (off + done) at_ = inCluster at *
      have count : min (512 - inCluster % 512) (len - done) ≤ len - done := Nat.min_le_right _ _
      have kept (i : Nat) (behind : len ≤ i) : store buf done ((b.1.drop (inCluster % 512)).take
          (min (512 - inCluster % 512) (len - done))) i = buf i := by
        refine store_outside (Or.inr ?_)
        have short := List.length_take_le (min (512 - inCluster % 512) (len - done))
          (b.1.drop (inCluster % 512))
        omega
      have upTo : inCluster + min (512 - inCluster % 512) (len - done) ≤ f.csize := by
        unfold FatRo.csize
        omega
      simp only
      split
      · rename_i full
        refine (fatNext_does).bind fun next m counted => ?_
        refine (ih (by omega) fun more => ?_).mono fun r m' h =>
          ⟨⟨h.1.1, fun i behind => (h.1.2 i behind).trans (kept i behind)⟩, by omega⟩
        have positive := csize_pos f
        have exact_ : (at_ + f.csize) % 2 ^ 32 = at_ + f.csize := Nat.mod_eq_of_lt (by omega)
        rw [exact_]
        omega
      · rename_i inside
        refine (ih (by omega) fun more => ?_).mono fun r m' h =>
          ⟨⟨h.1.1, fun i behind => (h.1.2 i behind).trans (kept i behind)⟩, by omega⟩
        omega

/-- A pass of the copying loop takes a byte at least, so fuel for every byte that is left is enough. -/
theorem copyFrom_enough {off len fuel done c at_ : Nat} {buf : Nat → UInt8} {cursor : Option FatRoCursor}
    (enough : len - done ≤ fuel) : copyFrom f off len (fuel + 1) done c at_ buf cursor k =
      copyFrom f off len fuel done c at_ buf cursor k := by
  induction fuel generalizing done c at_ buf cursor k with
  | zero =>
    conv_lhs => rw [copyFrom_succ, if_pos (Or.inl (by omega))]
    rfl
  | succ fuel ih =>
    conv_lhs => rw [copyFrom_succ]
    conv_rhs => rw [copyFrom_succ]
    by_cases ends : len ≤ done ∨ f.beyond c = true
    · rw [if_pos ends, if_pos ends]
    · rw [if_neg ends, if_neg ends]
      have left : ¬len ≤ done := fun no => ends (Or.inl no)
      refine congrArg (_ >>= ·) (funext fun answer => ?_)
      cases answer with
      | none => rfl
      | some b =>
        have taken : len - (done + min (512 - sub32 (off + done) at_ % 512) (len - done)) ≤ fuel := by omega
        exact ite_congr rfl (fun _ => congrArg (_ >>= ·) (funext fun _ => ih taken)) fun _ => ih taken

theorem fatroRead_does {e : FatRoEntry} {cursor : Option FatRoCursor} {off len : Nat} {buf : Nat → UInt8} :
    Does (fatroRead f k e cursor off buf len) n fun r m =>
      r.Within buf len ∧ m ≤ n + ((f.clusters + 3) * 4 + len * 5) := by
  refine Prog.wp_ite (fun _ => Prog.wp_pure.mpr ⟨⟨Nat.zero_le _, fun _ _ => rfl⟩, Nat.le_add_right _ _⟩)
    fun some_ => ?_
  have size := e.size_lt
  have cut : min len (e.size - off) ≤ len := Nat.min_le_left _ _
  have budget := Nat.mod_le (f.clusters + 2) (2 ^ 32)
  have front : ((cursor.filter fun c => c.first = e.firstCluster && 2 ≤ c.cluster && c.at_ ≤ off).map
      FatRoCursor.at_).getD 0 ≤ off := by
    cases resumed : cursor.filter fun c => c.first = e.firstCluster && 2 ≤ c.cluster && c.at_ ≤ off with
    | none => exact Nat.zero_le _
    | some c =>
      have kept := (Option.filter_eq_some_iff.mp resumed).2
      simp only [Bool.and_eq_true, decide_eq_true_eq] at kept
      exact kept.2
  refine (seek_does front).bind fun r m there => ?_
  obtain ⟨counted, place⟩ := there
  cases found : r.1 with
  | none => exact Prog.wp_pure.mpr ⟨⟨Nat.zero_le _, fun _ _ => rfl⟩, by omega⟩
  | some p =>
    obtain ⟨before, behind⟩ := place p found
    refine (copyFrom_does (by omega) (Nat.zero_le _) fun _ => ⟨before, behind⟩).mono fun copied m' h => ?_
    exact ⟨⟨Nat.le_trans h.1.1 cut, fun i le => h.1.2 i (Nat.le_trans cut le)⟩, by omega⟩

/-! ### All of it -/

/-- On every card, mounting, listing, looking up and reading end after a number of sectors that the volume
bounds; the sectors are inside every volume that is ordered, as one is whose boot sector's fields do not pass 2^32;
and a read writes into its buffer only. -/
theorem fatro_stays (f : FatRo) (k : Cache) : Does fatroMount 0 (fun r m => m ≤ mountBound 5 r) ∧
    (∀ path, Does (fatroList f k path) 0 fun _ m => m ≤ ((components path).length + 1) * f.walkBound) ∧
    (∀ path, Does (resolve f k path) 0 fun _ m => m ≤ (components path).length * f.walkBound) ∧
    (∀ (e : FatRoEntry) (cursor : Option FatRoCursor) (off len : Nat) (buf : Nat → UInt8),
      Does (fatroRead f k e cursor off buf len) 0 fun r m =>
        r.Within buf len ∧ m ≤ (f.clusters + 3) * 4 + len * 5) ∧
    ∀ base b g, geometry base b = some g →
      (g.Ordered ↔ tablesAt base b % 2 ^ 32 ≤ dataAt base b % 2 ^ 32 ∧
        rootAt base b % 2 ^ 32 ≤ dataAt base b % 2 ^ 32) ∧ (dataAt base b < 2 ^ 32 → g.Ordered) := by
  refine ⟨(fatroMount_does).mono fun r m h => by simpa using h, fun path => ?_, fun path => ?_, ?_,
    fun base b g mounted => ⟨geometry_ordered mounted, ordered_of_fits mounted⟩⟩
  · exact (fatroList_does).mono fun r m h => by simpa using h
  · exact (resolveFrom_does).mono fun r m h => by simpa using h
  · exact fun e cursor off len buf => (fatroRead_does).mono fun r m h => by simpa using h

/-- A boot sector whose table is so long that the root directory begins behind the numbers of 32 bits. -/
def wrapped : Sector where
  val := (List.range 512).map fun i =>
    if i = 12 then 2
    else if i = 13 ∨ i = 14 ∨ i = 16 ∨ i = 18 then 1
    else if i = 17 then 0x40
    else if i = 19 then 26
    else if i = 36 then 0xFB
    else if i = 37 ∨ i = 38 ∨ i = 39 then 0xFF
    else if i = 510 then 0x55
    else if i = 511 then 0xAA
    else 0
  property := by rw [List.length_map, List.length_range]

theorem not_all_reads_inside :
    ¬Prog.wp counting (fun _ r => r.Inside) (fun r m => m ≤ mountBound 5 r) fatroMount 0 := by
  intro inside
  have all : ∀ v ∈ fatroMount.asked counting (fun _ => some wrapped) 0 0, v.2.Inside := inside.asked
  have third : ((fatroMount.asked counting (fun _ => some wrapped) 0 0)[2]?.map fun v =>
      (v.2.lba, v.2.volume.map fun f => f.firstData + f.clusters * f.spc)) = some (4294967292, some 26) := by
    decide +kernel
  obtain ⟨v, there, same⟩ := Option.map_eq_some_iff.mp third
  obtain ⟨lba, volume⟩ := Prod.mk.inj same
  obtain ⟨f, mounted, ends⟩ := Option.map_eq_some_iff.mp volume
  have below := all v (List.mem_of_getElem? there) f mounted
  omega

end RPCortex.Card
