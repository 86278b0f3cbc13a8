import RPCortex.Fat12.Table

/-! The size of the table that `f12_format` settles on.  The table's size depends on the clusters and
the clusters on the table's size, so the loop runs back and forth between sizes that are too small and
too large; an even number of passes ends on the smaller side.  The three bytes for two entries are
counted in 32 bits, so the sizes begin anew behind 1431655762 and behind 2863311528 clusters. -/

namespace RPCortex.Fat12

open Lib

/-- The sectors of a table for some clusters: three bytes for two entries, and the two reserved
entries. -/
def tableSectors (clusters : Nat) : Nat := (((clusters + 2) * 3 + 1) % 2 ^ 32 / 2 + 511) / 512

/-- The loop of `f12_format` that settles the size of the table: its sectors and the clusters, of a
medium of `total` sectors and with 8 sectors for the root directory. -/
def settle (total : Nat) : (passes fatSectors clusters : Nat) → Option (Nat × Nat)
  | 0, fatSectors, clusters => some (fatSectors, clusters)
  | passes + 1, fatSectors, _ =>
    let overhead := 1 + fatSectors + 8
    if total ≤ overhead then none
    else
      let clusters := total - overhead
      let need := tableSectors clusters
      if need = fatSectors then some (fatSectors, clusters) else settle total passes need clusters

theorem one_lt_spcLimit : 1 < 256 := by decide

/-- The volume of a format: clusters of one sector, one table, 128 slots in the root directory. -/
def formatted (fatSectors clusters : Nat) : F12 where
  reserved := 1
  numFats := 1
  rootEntries := 128
  spc := 1
  fatSectors := fatSectors
  firstFat := 1
  firstRoot := 1 + fatSectors
  firstData := 1 + fatSectors + 8
  clusters := min clusters 4084
  spc_pos := Nat.one_pos
  spc_lt := one_lt_spcLimit
  clusters_lt := by omega

/-- Sector counts whose table has room for the clusters: behind each wrap it is some sectors only. -/
def Roomy (total : Nat) : Prop :=
  total < 1431655773 ∨ (1431659540 ≤ total ∧ total < 2863311539) ∨
    (2863315305 ≤ total ∧ total < 2 ^ 32)

instance (total : Nat) : Decidable (Roomy total) := by unfold Roomy; infer_instance

/-- Sector counts whose table has room for the clusters and whose size fits into the boot sector. -/
def Agreeing (total : Nat) : Prop :=
  total < 22434824 ∨ (1431659540 ≤ total ∧ total < 1454090589) ∨
    (2863315305 ≤ total ∧ total < 2885746354)

section Iterates

variable {f : Nat → Nat} {x : Nat}

/-- A map that turns the order around goes up from a point below its value, and down again. -/
theorem iterate_even (anti : Antitone f) (below : x ≤ f x) (k : Nat) :
    f^[2 * k] x ≤ f (f^[2 * k] x) ∧ f (f (f^[2 * k] x)) ≤ f (f^[2 * k] x) := by
  induction k with
  | zero => exact ⟨below, anti below⟩
  | succ k ih =>
    have two : f^[2 * (k + 1)] x = f (f (f^[2 * k] x)) := by
      rw [Nat.mul_succ, Function.iterate_succ_apply', Function.iterate_succ_apply']
    rw [two]
    exact ⟨anti ih.2, anti (anti ih.2)⟩

end Iterates

/-- The next size of the table. -/
def nextSize (total fatSectors : Nat) : Nat := tableSectors (total - (1 + fatSectors + 8))

variable {total passes fatSectors clusters base e m : Nat} {r : Nat × Nat}

/-- What the loop ends with: where it stops early, the size stays as it is. -/
theorem settle_eq (h : settle total (passes + 1) fatSectors clusters = some r) :
    1 + fatSectors + 8 < total ∧ r.1 = (nextSize total)^[passes + 1] fatSectors ∧
      r.2 = total - (1 + (nextSize total)^[passes] fatSectors + 8) := by
  induction passes generalizing fatSectors clusters with
  | zero =>
    rw [settle] at h
    dsimp only at h
    split at h
    · cases h
    · refine ⟨by omega, ?_⟩
      split at h
      · rename_i fixed
        cases h
        exact ⟨fixed.symm, rfl⟩
      · cases h
        exact ⟨rfl, rfl⟩
  | succ passes ih =>
    rw [settle] at h
    dsimp only at h
    split at h
    · cases h
    · refine ⟨by omega, ?_⟩
      split at h
      · rename_i fixed
        cases h
        have same (n : Nat) : (nextSize total)^[n] fatSectors = fatSectors :=
          Function.iterate_fixed fixed n
        exact ⟨(same _).symm, by rw [same]⟩
      · exact (ih h).2

/-- The sectors of a table of so many clusters behind a wrap. -/
def sized (e m : Nat) : Nat := ((3 * m + e) / 2 + 511) / 512

theorem sized_anti (e m : Nat) : Antitone fun size => sized e (m - size) := by
  intro a b le
  simp only [sized]
  omega

/-- The sizes of the passes, while the clusters stay behind one wrap. -/
theorem iterate_nextSize (here : ∀ j < m, tableSectors (base + j) = sized e j)
    (sum : total = 9 + base + m) (two : 2 ≤ m) (small : e ≤ 7) (i : Nat) :
    (nextSize total)^[i] 1 = (fun size => sized e (m - size))^[i] 1 ∧
      1 ≤ (nextSize total)^[i] 1 ∧ (nextSize total)^[i] 1 < m := by
  induction i with
  | zero => exact ⟨rfl, le_rfl, two⟩
  | succ i ih =>
    obtain ⟨same, low, high⟩ := ih
    rw [Function.iterate_succ_apply', Function.iterate_succ_apply', ← same]
    generalize (nextSize total)^[i] 1 = size at low high
    have step : nextSize total size = sized e (m - size) := by
      rw [nextSize, ← here (m - size) (by omega)]
      congr 1
      omega
    rw [step]
    refine ⟨rfl, ?_⟩
    unfold sized
    omega

/-- The last two sizes and the clusters, behind one wrap. -/
structure Settled (base e m : Nat) (r : Nat × Nat) (before : Nat) : Prop where
  size : r.1 = sized e (m - before)
  clusters : r.2 = base + (m - before)
  low : r.1 ≤ sized e (m - r.1)
  falls : r.1 ≤ before
  inside : before < m

/-- The size ends on the smaller side. -/
theorem settled_of_wrap (h : settle total 8 1 0 = some r)
    (here : ∀ j < m, tableSectors (base + j) = sized e j) (sum : total = 9 + base + m)
    (two : 2 ≤ m) (small : e ≤ 7) :
    ∃ sixth fifth, 1 ≤ fifth ∧ fifth ≤ sized e (m - 1) ∧ sixth = sized e (m - fifth) ∧
      Settled base e m r (sized e (m - sixth)) := by
  obtain ⟨-, last, clusters⟩ := settle_eq h
  have eq := iterate_nextSize here sum two small
  have below : 1 ≤ sized e (m - 1) := by
    unfold sized
    omega
  obtain ⟨low, -⟩ := iterate_even (sized_anti e m) below 4
  obtain ⟨-, falls⟩ := iterate_even (sized_anti e m) below 3
  have seven := (eq 7).2.2
  have five := (eq 5).2.1
  have four := (eq 4).2.1
  rw [(eq 8).1] at last
  rw [(eq 7).1] at clusters seven
  rw [(eq 5).1] at five
  rw [(eq 4).1] at four
  simp only [Nat.reduceMul] at low falls
  refine ⟨(fun size => sized e (m - size))^[6] 1, (fun size => sized e (m - size))^[5] 1, five,
    ?_, rfl, ⟨last, ?_, ?_, ?_, seven⟩⟩
  · exact sized_anti e m four
  · rw [clusters]
    show total - (1 + sized e (m - (fun size => sized e (m - size))^[6] 1) + 8) = _
    change sized e (m - (fun size => sized e (m - size))^[6] 1) < m at seven
    omega
  · rw [last]
    exact low
  · rw [last]
    exact falls

/-! ### The bounds of the size -/

section Bounds

variable {before sixth fifth : Nat}

theorem Settled.small (settled : Settled base e m r before) (h : 3 * m + e ≤ 67304449) :
    r.1 < 65536 := by
  have low := settled.low
  have inside := Nat.lt_of_le_of_lt settled.falls settled.inside
  unfold sized at low
  omega

theorem Settled.few (settled : Settled base e m r before) (h : 3 * m + e ≤ 11301) : r.1 < 12 := by
  have low := settled.low
  have inside := Nat.lt_of_le_of_lt settled.falls settled.inside
  unfold sized at low
  omega

/-- Two passes narrow the size down to one or two values. -/
theorem Settled.large (settled : Settled base e m r (sized e (m - sixth)))
    (sixth_ : sixth = sized e (m - fifth)) (up : fifth ≤ sized e (m - 1))
    (h : 67304450 ≤ 3 * m + e) : 65536 ≤ r.1 := by
  have size := settled.size
  by_contra short
  unfold sized at size sixth_ up
  omega

theorem Settled.many (settled : Settled base e m r before) (up : before ≤ sized e (m - 1))
    (h : 11303 ≤ 3 * m + e) : 12 ≤ r.1 := by
  have size := settled.size
  unfold sized at size up
  omega

end Bounds

/-- The three stretches of sector counts between the wraps, and the first cluster count of each. -/
theorem stretch_of_total (least : 11 ≤ total) (most : total < 2 ^ 32) (ne : total ≠ 1431655773)
    (ne' : total ≠ 2863311539) : ∃ base e m, (∀ j < m, tableSectors (base + j) = sized e j) ∧
      total = 9 + base + m ∧ 2 ≤ m ∧
      (base = 0 ∧ e = 7 ∧ total < 1431655773 ∨
        base = 1431655763 ∧ e = 0 ∧ total < 2863311539 ∨ base = 2863311529 ∧ e = 2) := by
  by_cases first : total < 1431655773
  · refine ⟨0, 7, total - 9, fun j hj => ?_, by omega, by omega, .inl ⟨rfl, rfl, first⟩⟩
    have whole : ((0 + j + 2) * 3 + 1) % 2 ^ 32 = 3 * j + 7 := by omega
    rw [tableSectors, sized, whole]
  by_cases second : total < 2863311539
  · refine ⟨1431655763, 0, total - 1431655772, fun j hj => ?_, by omega, by omega,
      .inr (.inl ⟨rfl, rfl, second⟩)⟩
    have once : ((1431655763 + j + 2) * 3 + 1) % 2 ^ 32 = 3 * j + 0 := by omega
    rw [tableSectors, sized, once]
  · refine ⟨2863311529, 2, total - 2863311538, fun j hj => ?_, by omega, by omega,
      .inr (.inr ⟨rfl, rfl⟩)⟩
    have twice : ((2863311529 + j + 2) * 3 + 1) % 2 ^ 32 = 3 * j + 2 := by omega
    rw [tableSectors, sized, twice]

theorem holdsEntries_formatted : (formatted fatSectors clusters).HoldsEntries ↔
    ((min clusters 4084 + 2) * 3 + 1) / 2 ≤ fatSectors * 512 := Iff.rfl

/-- What the loop settles on: the clusters fit behind the table, and when the table holds the entries
and its size fits into sixteen bits. -/
theorem settle_cases (h : settle total 8 1 0 = some r) (most : total < 2 ^ 32) :
    0 < r.2 ∧ 1 ≤ r.1 ∧ 9 + r.1 + min r.2 4084 ≤ total ∧
      ((formatted r.1 r.2).HoldsEntries ↔ Roomy total) ∧
      ((formatted r.1 r.2).HoldsEntries ∧ r.1 < 65536 ↔ Agreeing total) := by
  have least := (settle_eq h).1
  rw [holdsEntries_formatted]
  unfold Roomy Agreeing
  by_cases ne : total = 1431655773
  · have two : settle 1431655773 8 1 0 = some (1, 1431655764) := by decide
    rw [ne, two] at h
    obtain rfl := Option.some.inj h
    simp only
    omega
  by_cases ne' : total = 2863311539
  · have two : settle 2863311539 8 1 0 = some (1, 2863311529) := by decide
    rw [ne', two] at h
    cases h
    omega
  obtain ⟨base, e, m, here, sum, two, which⟩ := stretch_of_total (by omega) most ne ne'
  obtain ⟨sixth, fifth, one, up, sixth_, settled⟩ := settled_of_wrap h here sum two (by omega)
  have anti := sized_anti e m
  have bound : sized e (m - sixth) ≤ sized e (m - 1) := by
    refine anti ?_
    rw [sixth_]
    unfold sized
    unfold sized at up
    omega
  have small : 3 * m + e ≤ 67304449 → r.1 < 65536 := settled.small
  have few : 3 * m + e ≤ 11301 → r.1 < 12 := settled.few
  have large : 67304450 ≤ 3 * m + e → 65536 ≤ r.1 := settled.large sixth_ up
  have many : 11303 ≤ 3 * m + e → 12 ≤ r.1 := settled.many bound
  have size := settled.size
  have clusters := settled.clusters
  have falls := settled.falls
  have inside := settled.inside
  generalize sized e (m - sixth) = before at *
  have some_ : 1 ≤ r.1 := by
    rw [size]
    unfold sized
    omega
  rcases which with ⟨rfl, rfl, first⟩ | ⟨rfl, rfl, second⟩ | ⟨rfl, rfl⟩
  · unfold sized at size
    omega
  · rcases Nat.lt_or_ge m 3768 with least | enough
    · have := few (by omega)
      omega
    · have := many (by omega)
      rcases Nat.lt_or_ge m 22434817 with fits | over_
      · have := small (by omega)
        omega
      · have := large (by omega)
        omega
  · rcases Nat.lt_or_ge m 3767 with least | enough
    · have := few (by omega)
      omega
    · have := many (by omega)
      rcases Nat.lt_or_ge m 22434816 with fits | over_
      · have := small (by omega)
        omega
      · have := large (by omega)
        omega

end RPCortex.Fat12
