import RPCortex.Lib.Along
import RPCortex.Fat12.Cursor
import RPCortex.Fat12.Write

/-! Removing a file from a medium whose sectors can fail, `fat12.cpp`.  The functions are programs over
sector reads and writes: a read that fails gives nothing, and a write that fails leaves any bytes.
`free_chain` has no budget of its own; it ends because each cluster that it goes on from has just been
set free. -/

namespace RPCortex.Fat12.Fault

open Lib Prog

/-- `F12Io`. -/
inductive Request
  | read (lba : Nat)
  | write (lba : Nat) (sec : List UInt8)

/-- Whether the medium does it, and what a write that fails leaves of the sector. -/
structure Outcome where
  ok : Bool
  torn : List UInt8

/-- What the functions ask for: the bytes of a sector, or nothing. -/
abbrev Io (α : Type) : Type := Prog Request (Option (List UInt8)) α

/-- One sector. -/
def perform (d : Disk) (r : Request) (o : Outcome) : Option (List UInt8) × Disk :=
  match r with
  | .read lba => (if o.ok then some (d.read lba) else none, d)
  | .write lba sec => if o.ok then (some [], d.write lba sec) else (none, d.write lba o.torn)

/-! ### The table -/

/-- `fat_byte`. -/
def fatByte (f : F12) (off : Nat) : Io (Option UInt8) := do
  let sec ← call (.read (f.firstFat + off / 512))
  pure (sec.map fun b => b.getD (off % 512) 0)

/-- `fat_byte_set`. -/
def fatByteSet (f : F12) (off : Nat) (mask value : UInt8) : Io Bool := do
  let lba := f.firstFat + off / 512
  match ← call (.read lba) with
  | none => pure false
  | some sec =>
    let b := sec.getD (off % 512) 0
    let done ← call (.write lba (sec.set (off % 512) ((b &&& ~~~mask) ||| (value &&& mask))))
    pure done.isSome

/-- The value of an entry of two bytes. -/
def entryOf (cluster : Nat) (a b : UInt8) : Nat :=
  if cluster % 2 = 1 then a.toNat >>> 4 ||| b.toNat <<< 4
  else a.toNat ||| (b.toNat &&& 0x0F) <<< 8

/-- `fat_get`: `F12_EOC` where the table cannot be read. -/
def fatGet (f : F12) (cluster : Nat) : Io Nat := do
  let off := cluster + cluster / 2
  match ← fatByte f off with
  | none => pure 0xFFF
  | some a =>
    match ← fatByte f (off + 1) with
    | none => pure 0xFFF
    | some b => pure (entryOf cluster a b)

/-- `fat_set`. -/
def fatSet (f : F12) (cluster value : Nat) : Io Bool := do
  let off := cluster + cluster / 2
  let value := value &&& 0x0FFF
  if cluster % 2 = 1 then
    let first ← fatByteSet f off 0xF0 (.ofNat (value <<< 4))
    if first then fatByteSet f (off + 1) 0xFF (.ofNat (value >>> 4)) else pure false
  else
    let first ← fatByteSet f off 0xFF (.ofNat value)
    if first then fatByteSet f (off + 1) 0x0F (.ofNat (value >>> 8)) else pure false

/-- `free_chain`; `none` when it is not done after so many clusters. -/
def freeChain (f : F12) : (fuel : Nat) → (cluster : Nat) → Io (Option Unit)
  | 0, _ => pure none
  | fuel + 1, cluster =>
    if inChain cluster then do
      let next ← fatGet f cluster
      let freed ← fatSet f cluster 0
      if freed then freeChain f fuel next else pure (some ())
    else pure (some ())

/-! ### The directory -/

/-- Where the search of `dir_scan` is behind some slots. -/
inductive Scan
  | found (x : Found)
  | ended
  | goesOn (l : LongName)

/-- The loop of `dir_scan` for a name over the slots of a sector. -/
def searchSlots (name : List UInt8) : (slots : List (List UInt8)) → (slot : Nat) → LongName → Scan
  | [], _, l => .goesOn l
  | e :: slots, slot, l =>
    let attr := e.getD 11 0
    if e.getD 0 0 = 0 then .ended
    else if e.getD 0 0 = 0xE5 then searchSlots name slots (slot + 1) noName
    else if attr &&& 0x0F = 0x0F then
      let l := if e.getD 0 0 &&& 0x40 ≠ 0 then ⟨List.replicate maxName 0, true⟩ else l
      searchSlots name slots (slot + 1) (if l.ok then lfnGather e l else l)
    else if attr &&& 0x08 ≠ 0 then searchSlots name slots (slot + 1) { l with ok := false }
    else
      let x : Found := ⟨Fat12.entryOf e l, shortName e, slot⟩
      if ieq x.entry.name name || ieq x.short name then .found x
      else searchSlots name slots (slot + 1) noName

/-- The slots of a sector. -/
def slotsOf (sec : List UInt8) : List (List UInt8) :=
  (List.range 16).map fun i => (sec.drop (i * 32)).take 32

/-- The loop of `dir_scan` over the sectors from `sn` on; `none` where one cannot be read. -/
def searchSectors (f : F12) (name : List UInt8) :
    (sectors sn : Nat) → LongName → Io (Option (Option Found))
  | 0, _, _ => pure (some none)
  | sectors + 1, sn, l => do
    match ← call (.read (f.firstRoot + sn)) with
    | none => pure none
    | some sec =>
      match searchSlots name (slotsOf sec) (sn * 16) l with
      | .found x => pure (some (some x))
      | .ended => pure (some none)
      | .goesOn l => searchSectors f name sectors (sn + 1) l

/-- `dir_write_slot`. -/
def dirWriteSlot (f : F12) (slot : Nat) (entry : List UInt8) : Io Bool := do
  let lba := f.firstRoot + slot / 16
  match ← call (.read lba) with
  | none => pure false
  | some sec =>
    let at_ := slot % 16 * 32
    let done ← call (.write lba (sec.take at_ ++ entry ++ sec.drop (at_ + 32)))
    pure done.isSome

/-- The loop of `f12_remove` that marks the slots of an entry, from its last one on. -/
def eraseSlots (f : F12) (last : Nat) : (slots : Nat) → Io Bool
  | 0 => pure true
  | slot + 1 => do
    match ← call (.read (f.firstRoot + slot / 16)) with
    | none => pure false
    | some sec =>
      let e := (sec.drop (slot % 16 * 32)).take 32
      if slot ≠ last ∧ e.getD 11 0 &&& 0x0F ≠ 0x0F then pure true
      else
        let marked ← dirWriteSlot f slot (0xE5 :: e.drop 1)
        if !marked then pure false
        else if slot ≠ last ∧ e.getD 0 0 &&& 0x40 ≠ 0 then pure true
        else eraseSlots f last slot

/-- `f12_remove`; `none` when `free_chain` is not done. -/
def f12Remove (f : F12) (fuel : Nat) (name : List UInt8) : Io (Option Bool) := do
  match ← searchSectors f name f.rootSectors 0 noName with
  | none | some none => pure (some false)
  | some (some x) =>
    match ← freeChain f fuel x.entry.firstCluster with
    | none => pure none
    | some () =>
      let done ← eraseSlots f x.slot (x.slot + 1)
      pure (some done)

variable {f : F12} {d : Disk} {supply : Nat → Outcome} {n c e v off fuel : Nat} {mask value : UInt8}

/-! ### What single calls do -/

/-- A byte of the table is read as it is, or not at all, and nothing changes. -/
theorem run_fatByte (f : F12) (d : Disk) (supply : Nat → Outcome) (n off : Nat) :
    ∃ m, (fatByte f off).run perform supply n d = (if (supply n).ok then some (Fat12.fatByte f d off) else none, m, d) := by
  refine ⟨n + 1, ?_⟩
  rw [fatByte, run_call_bind]
  simp only [perform]
  split <;> rfl

/-- An entry is read as it is, or as the end of a chain, and nothing changes. -/
theorem run_fatGet (f : F12) (d : Disk) (supply : Nat → Outcome) (n c : Nat) :
    ∃ v m, (fatGet f c).run perform supply n d = (v, m, d) ∧ (v = Fat12.fatGet f d c ∨ v = 0xFFF) ∧
      ((∀ k, (supply k).ok = true) → v = Fat12.fatGet f d c) := by
  obtain ⟨m, first⟩ := run_fatByte f d supply n (c + c / 2)
  rw [fatGet, run_bind, first]
  by_cases ok : (supply n).ok = true
  · obtain ⟨k, second⟩ := run_fatByte f d supply m (c + c / 2 + 1)
    simp only [ok, if_true]
    rw [run_bind, second]
    by_cases ok' : (supply m).ok = true
    · simp only [ok', if_true]
      exact ⟨_, _, rfl, .inl rfl, fun _ => rfl⟩
    · simp only [ok', if_false, Bool.false_eq_true]
      exact ⟨_, _, rfl, .inr rfl, fun all => absurd (all m) ok'⟩
  · simp only [ok, if_false, Bool.false_eq_true]
    exact ⟨_, _, rfl, .inr rfl, fun all => absurd (all n) ok⟩

/-- A byte that is set is set as on a medium without errors. -/
theorem run_fatByteSet (f : F12) (d : Disk) (supply : Nat → Outcome) (n off : Nat) (mask value : UInt8) :
    ∃ ok m d', (fatByteSet f off mask value).run perform supply n d = (ok, m, d') ∧
    (ok = true → d' = Fat12.fatByteSet f d off mask value) ∧
    ((∀ k, (supply k).ok = true) → ok = true) := by
  rw [fatByteSet, run_call_bind]
  simp only [perform]
  by_cases ok : (supply n).ok = true
  · rw [if_pos ok]
    dsimp only
    rw [run_call_bind]
    simp only [perform]
    by_cases ok' : (supply (n + 1)).ok = true
    · rw [if_pos ok']
      exact ⟨_, _, _, rfl, fun _ => rfl, fun _ => rfl⟩
    · rw [if_neg ok']
      exact ⟨_, _, _, rfl, fun no => absurd no Bool.noConfusion, fun all => absurd (all _) ok'⟩
  · rw [if_neg ok]
    exact ⟨_, _, _, rfl, fun no => absurd no Bool.noConfusion, fun all => absurd (all _) ok⟩

theorem run_fatSet (f : F12) (d : Disk) (supply : Nat → Outcome) (n c v : Nat) :
    ∃ ok m d', (fatSet f c v).run perform supply n d = (ok, m, d') ∧
      (ok = true → d' = Fat12.fatSet f d c v) ∧ ((∀ k, (supply k).ok = true) → ok = true) := by
  have pair (mask mask' value value' : UInt8) : ∃ ok m d',
      (fatByteSet f (c + c / 2) mask value >>= fun first =>
        if first then fatByteSet f (c + c / 2 + 1) mask' value' else pure false).run perform supply n d =
        (ok, m, d') ∧
      (ok = true → d' = Fat12.fatByteSet f (Fat12.fatByteSet f d (c + c / 2) mask value)
        (c + c / 2 + 1) mask' value') ∧ ((∀ k, (supply k).ok = true) → ok = true) := by
    obtain ⟨ok, m, d', first, done, reliable⟩ := run_fatByteSet f d supply n (c + c / 2) mask value
    rw [run_bind, first]
    cases ok with
    | false => exact ⟨_, _, _, rfl, fun no => absurd no Bool.noConfusion, reliable⟩
    | true =>
      rw [← done rfl]
      exact run_fatByteSet _ _ _ _ _ _ _
  rw [fatSet, Fat12.fatSet]
  split
  · exact pair _ _ _ _
  · exact pair _ _ _ _

/-! ### The chain -/

/-- The entries that a chain can go on from. -/
def taken (f : F12) (d : Disk) : List Nat :=
  (List.range 0xFF8).filter fun c => Fat12.fatGet f d c ≠ 0

theorem length_taken_le : (taken f d).length ≤ 0xFF8 := by
  have := List.length_filter_le (fun c => decide (Fat12.fatGet f d c ≠ 0)) (List.range 0xFF8)
  rwa [List.length_range] at this

/-- An entry that was not zero and is set free is one less. -/
theorem length_taken_lt (on : inChain c = true) (used : Fat12.fatGet f d c ≠ 0) :
    (taken f (Fat12.fatSet f d c 0)).length < (taken f d).length := by
  have rest : taken f (Fat12.fatSet f d c 0) = (taken f d).filter fun e => e ≠ c := by
    rw [taken, taken, List.filter_filter]
    refine List.filter_congr fun e _ => ?_
    rw [fatGet_fatSet (by decide)]
    by_cases same : e = c <;> simp [same]
  rw [rest, List.length_filter_lt_length_iff_exists]
  rw [inChain, Bool.and_eq_true, decide_eq_true_eq, decide_eq_true_eq] at on
  refine ⟨c, List.mem_filter.mpr ⟨List.mem_range.mpr on.2, by simpa using used⟩, by simp⟩

/-- The clusters that a chain goes through. -/
def Reached (f : F12) (d : Disk) (c e : Nat) : Prop := inChain e = true ∧ ∃ j, follow f d j c = e

/-- Two media that agree but for one entry have the same chain up to there. -/
theorem follow_congr {d' : Disk} {a j : Nat}
    (same : ∀ e, e ≠ c → Fat12.fatGet f d' e = Fat12.fatGet f d e)
    (away : ∀ i < j, follow f d i a ≠ c) : follow f d' j a = follow f d j a := by
  induction j generalizing a with
  | zero => rfl
  | succ j ih =>
    simp only [follow]
    split
    · rename_i on
      rw [same a (away 0 j.succ_pos)]
      refine ih fun i hi => ?_
      have later := away (i + 1) (Nat.succ_lt_succ hi)
      rwa [follow, if_pos on] at later
    · rfl

/-- Freeing the first cluster leaves the rest of its chain. -/
theorem reached_cons {e : Nat} (on : inChain c = true) : Reached f d c e ↔
    e = c ∨ Reached f (Fat12.fatSet f d c 0) (Fat12.fatGet f d c) e := by
  have same (x : Nat) (away : x ≠ c) :
      Fat12.fatGet f (Fat12.fatSet f d c 0) x = Fat12.fatGet f d x := by
    rw [fatGet_fatSet (by decide), if_neg away]
  have zero : Fat12.fatGet f (Fat12.fatSet f d c 0) c = 0 := by
    rw [fatGet_fatSet (by decide), if_pos rfl]
  have next (j : Nat) : follow f d (j + 1) c = follow f d j (Fat12.fatGet f d c) := by
    rw [follow, if_pos on]
  constructor
  · rintro ⟨chained, reaches⟩
    by_cases first : e = c
    · exact .inl first
    -- on a shortest way the first cluster does not come again
    classical
    obtain ⟨j, hj⟩ : ∃ j, Nat.find reaches = j + 1 := by
      refine Nat.exists_eq_succ_of_ne_zero fun no => first ?_
      have start := Nat.find_spec reaches
      rw [no] at start
      exact start.symm
    have way := Nat.find_spec reaches
    rw [hj, next] at way
    refine .inr ⟨chained, j, ?_⟩
    rw [follow_congr same, way]
    intro i hi again
    have short : follow f d (j - i) c = e := by
      rw [← again, ← follow_add, Nat.add_sub_cancel' hi.le, way]
    exact Nat.find_min reaches (by omega) short
  · rintro (rfl | ⟨chained, reaches⟩)
    · exact ⟨on, 0, rfl⟩
    · -- behind the first cluster, which is free, there is nothing
      obtain ⟨j, way⟩ := reaches
      refine ⟨chained, j + 1, ?_⟩
      rw [next]
      refine (follow_congr (fun x away => (same x away).symm) fun i hi again => ?_).trans way
      obtain ⟨k, hk⟩ : ∃ k, j = i + (k + 1) := ⟨j - i - 1, by omega⟩
      rw [hk, follow_add, again, follow, if_pos on, zero, follow_of_not_inChain (by decide)] at way
      rw [← way] at chained
      exact absurd chained (by decide)

/-- What `free_chain` does: it ends as soon as every taken cluster was freed, and on a medium without
errors the clusters that the chain goes through are free then, and no others change. -/
theorem run_freeChain (supply : Nat → Outcome) (n c : Nat) (enough : (taken f d).length + 2 ≤ fuel) :
    ∃ m d', (freeChain f fuel c).run perform supply n d = (some (), m, d') ∧
      ((∀ k, (supply k).ok = true) → ∀ e,
        (Reached f d c e → Fat12.fatGet f d' e = 0) ∧
          (¬Reached f d c e → Fat12.fatGet f d' e = Fat12.fatGet f d e)) := by
  induction fuel generalizing d c n with
  | zero => omega
  | succ fuel ih =>
    rw [freeChain]
    have idle (out : ¬inChain c = true) (e : Nat) : ¬Reached f d c e := by
      rintro ⟨chained, j, rfl⟩
      rw [follow_of_not_inChain (by simpa using out)] at chained
      exact out chained
    split
    · rename_i on
      obtain ⟨next, m, got, which, exact_⟩ := run_fatGet f d supply n c
      obtain ⟨ok, k, d', set_, done, reliable⟩ := run_fatSet f d supply m c 0
      rw [run_bind, got]
      dsimp only
      rw [run_bind, set_]
      cases ok with
      | false => exact ⟨_, _, rfl, fun all => absurd (reliable all) Bool.noConfusion⟩
      | true =>
        obtain rfl := done rfl
        simp only [if_true]
        have room : (taken f (Fat12.fatSet f d c 0)).length + 2 ≤ fuel ∨ inChain next = false := by
          by_cases goes : inChain next = true
          · have used : Fat12.fatGet f d c ≠ 0 := by
              rcases which with rfl | rfl
              · intro zero
                rw [zero] at goes
                exact absurd goes (by decide)
              · exact absurd goes (by decide)
            have less := length_taken_lt on used
            exact .inl (by omega)
          · exact .inr (by simpa using goes)
        have after : ∃ m d', (freeChain f fuel next).run perform supply k (Fat12.fatSet f d c 0) =
            (some (), m, d') ∧ ((∀ k, (supply k).ok = true) → ∀ e,
              (Reached f (Fat12.fatSet f d c 0) next e → Fat12.fatGet f d' e = 0) ∧
                (¬Reached f (Fat12.fatSet f d c 0) next e →
                  Fat12.fatGet f d' e = Fat12.fatGet f (Fat12.fatSet f d c 0) e)) := by
          rcases room with room | out
          · exact ih _ _ room
          · obtain ⟨fuel, rfl⟩ : ∃ k, fuel = k + 1 := ⟨fuel - 1, by omega⟩
            rw [freeChain, if_neg (by simp [out])]
            refine ⟨_, _, rfl, fun _ e => ⟨fun ⟨chained, j, there⟩ => ?_, fun _ => rfl⟩⟩
            rw [follow_of_not_inChain out] at there
            rw [← there, out] at chained
            cases chained
        obtain ⟨m', d', ran, frees⟩ := after
        refine ⟨m', d', ran, fun all e => ?_⟩
        obtain ⟨free, kept⟩ := frees all e
        rw [reached_cons on, ← exact_ all]
        by_cases rest : Reached f (Fat12.fatSet f d c 0) next e
        · exact ⟨fun _ => free rest, fun no => absurd (.inr rest) no⟩
        · rw [kept rest, fatGet_fatSet (by decide)]
          by_cases first : e = c
          · rw [if_pos first]
            exact ⟨fun _ => rfl, fun no => absurd (.inl first) no⟩
          · rw [if_neg first]
            exact ⟨fun reached => reached.elim (fun no => absurd no first) fun no => absurd no rest,
              fun _ => rfl⟩
    · rename_i out
      exact ⟨_, _, rfl, fun _ e => ⟨fun reached => absurd reached (idle out e), fun _ => rfl⟩⟩

/-! ### Removal -/

/-- A search changes nothing. -/
theorem run_searchSectors (f : F12) (d : Disk) (supply : Nat → Outcome) (n : Nat) (name : List UInt8)
    (sectors sn : Nat) (l : LongName) :
    ∃ r m, (searchSectors f name sectors sn l).run perform supply n d = (r, m, d) := by
  induction sectors generalizing sn l n with
  | zero => exact ⟨_, _, rfl⟩
  | succ sectors ih =>
    rw [searchSectors, run_call_bind]
    simp only [perform]
    split
    · exact ⟨_, _, rfl⟩
    · split
      · exact ⟨_, _, rfl⟩
      · exact ⟨_, _, rfl⟩
      · exact ih _ _ _

/-- For every medium, every pattern of failures, every first cluster and every name, freeing a chain
and removing a file end, and without failures exactly the clusters of the chain are set free. -/
theorem remove_ends (f : F12) (d : Disk) :
    (∀ supply n c, ((freeChain f chainFuel c).run perform supply n d).1 = some ()) ∧
      (∀ supply n name, ((f12Remove f chainFuel name).run perform supply n d).1 ≠ none) ∧
      ∀ supply n c, (∀ k, (supply k).ok = true) → ∀ e,
        (Reached f d c e →
          Fat12.fatGet f ((freeChain f chainFuel c).run perform supply n d).2.2 e = 0) ∧
        (¬Reached f d c e →
          Fat12.fatGet f ((freeChain f chainFuel c).run perform supply n d).2.2 e =
            Fat12.fatGet f d e) := by
  have enough : (taken f d).length + 2 ≤ chainFuel := by
    have := length_taken_le (f := f) (d := d)
    unfold chainFuel
    omega
  refine ⟨fun supply n c => ?_, fun supply n name => ?_, fun supply n c all e => ?_⟩
  · obtain ⟨m, d', ran, -⟩ := run_freeChain supply n c enough
    rw [ran]
  · obtain ⟨r, m, searched⟩ := run_searchSectors f d supply n name f.rootSectors 0
      noName
    rw [f12Remove, run_bind, searched]
    dsimp only
    split
    · exact Option.some_ne_none _
    · exact Option.some_ne_none _
    · rename_i x
      obtain ⟨k, d', ran, -⟩ := run_freeChain supply m x.entry.firstCluster enough
      rw [run_bind, ran]
      dsimp only
      rw [run_bind]
      exact Option.some_ne_none _
  · obtain ⟨m, d', ran, frees⟩ := run_freeChain supply n c enough
    rw [ran]
    exact frees all e

/-- The chain of one cluster. -/
theorem remove_ends_small : Fat12.fatGet twoSectors ((freeChain twoSectors chainFuel 2).run perform
    (fun _ => ⟨true, []⟩) 0 oneCluster).2.2 2 = 0 :=
  ((remove_ends twoSectors oneCluster).2.2 (fun _ => ⟨true, []⟩) 0 2 (fun _ => rfl) 2).1
    ⟨by decide, 0, rfl⟩

end RPCortex.Fat12.Fault
