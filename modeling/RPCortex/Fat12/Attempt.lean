import RPCortex.Fat12.Fault
import RPCortex.Fat12.Used

/-! Writing a file on a medium whose sectors can fail, `fat12.cpp`.  What the searches of the directory find
is what is there, or a sector of it cannot be read. -/

namespace RPCortex.Fat12.Fault

open Lib Prog

/-- The search of `alloc_cluster` from `c` on. -/
def allocFrom (f : F12) (after : Nat) : (left c : Nat) → Io (Option Nat)
  | 0, _ => pure none
  | left + 1, c => do
    let v ← fatGet f c
    if v ≠ 0 then allocFrom f after left (c + 1)
    else
      let taken ← fatSet f c 0xFFF
      if !taken then pure none
      else if after ≠ 0 then
        let linked ← fatSet f after c
        if linked then pure (some c) else pure none
      else pure (some c)

/-- `alloc_cluster`. -/
def allocCluster (f : F12) (after : Nat) : Io (Option Nat) := allocFrom f after f.clusters 2

/-- The inner loop of `f12_write` over the sectors of a cluster. -/
def writeCluster (f : F12) (src : Nat → Nat → List UInt8) (size c : Nat) :
    (sectors sn done : Nat) → Io (Option Nat)
  | 0, _, done => pure (some done)
  | sectors + 1, sn, done =>
    if size ≤ done then pure (some done)
    else
      let want := min 512 (size - done)
      let data := src done want
      if data.length ≠ want then pure none
      else do
        let wrote ← call (.write (f.firstData + (c - 2) * f.spc + sn) (data ++ List.replicate (512 - want) 0))
        if wrote.isSome then writeCluster f src size c sectors (sn + 1) (done + want) else pure none

/-- The outer loop of `f12_write`: the first cluster, or `none` when it fails.  Every pass writes a byte, so a
pass for each byte is enough. -/
def writeData (f : F12) (src : Nat → Nat → List UInt8) (size : Nat) :
    (fuel first prev done : Nat) → Io (Option Nat)
  | 0, first, _, _ => pure (some first)
  | fuel + 1, first, prev, done =>
    if size ≤ done then pure (some first)
    else do
      match ← allocCluster f prev with
      | none =>
        if first ≠ 0 then
          let _ ← freeChain f chainFuel first
          pure none
        else pure none
      | some c =>
        let first := if first = 0 then c else first
        match ← writeCluster f src size c f.spc 0 done with
        | none =>
          let _ ← freeChain f chainFuel first
          pure none
        | some done => writeData f src size fuel first c done

/-- Where the search of `dir_scan` for free slots is behind some slots. -/
inductive Room
  | ended (found : Option Nat)
  | goesOn (run : Option (Nat × Nat)) (found : Option Nat)

/-- The loop of `dir_scan` for free slots over the slots of a sector. -/
def roomSlots (f : F12) (needed : Nat) :
    (slots : List (List UInt8)) → (slot : Nat) → (run : Option (Nat × Nat)) → Option Nat → Room
  | [], _, run, found => .goesOn run found
  | e :: slots, slot, run, found =>
    if e.getD 0 0 = 0 ∨ e.getD 0 0 = 0xE5 then
      let start := (run.getD (slot, 0)).1
      let len := (run.getD (slot, 0)).2 + 1
      let found := if needed ≤ len ∧ found = none then some start else found
      if e.getD 0 0 = 0 then
        .ended (if found = none ∧ (f.rootEntries < start ∨ needed ≤ f.rootEntries - start) then some start
          else found)
      else roomSlots f needed slots (slot + 1) (some (start, len)) found
    else roomSlots f needed slots (slot + 1) none found

/-- The loop of `dir_scan` for free slots over the sectors from `sn` on; `none` where one cannot be read. -/
def roomSectors (f : F12) (needed : Nat) :
    (sectors sn : Nat) → (run : Option (Nat × Nat)) → Option Nat → Io (Option (Option Nat))
  | 0, _, _, found => pure (some found)
  | sectors + 1, sn, run, found => do
    match ← call (.read (f.firstRoot + sn)) with
    | none => pure none
    | some sec =>
      match roomSlots f needed (slotsOf sec) (sn * 16) run found with
      | .ended found => pure (some found)
      | .goesOn run found => roomSectors f needed sectors (sn + 1) run found

/-- The loop of `f12_write` over the slots of a long name, from `i` on, and the slot behind them. -/
def writeEntries (f : F12) (start slots : Nat) (name : List UInt8) (s : ShortName) (entry : List UInt8) :
    (left i : Nat) → Io Bool
  | 0, _ => dirWriteSlot f (start + (slots - 1)) entry
  | left + 1, i => do
    let done ← dirWriteSlot f (start + i) (lfnEntry name s.name (slots - 1 - i) (i = 0))
    if done then writeEntries f start slots name s entry left (i + 1) else pure false

/-- `f12_write` behind the removal. -/
def writeNew (f : F12) (name : List UInt8) (size mtime : Nat) (src : Nat → Nat → List UInt8) : Io Bool :=
  match fatShortname name with
  | none => pure false
  | some s => do
    match ← roomSectors f (fatEntriesFor name) f.rootSectors 0 none none with
    | none | some none => pure false
    | some (some start) =>
      match ← writeData f src size (size + 1) 0 0 0 with
      | none => pure false
      | some first =>
        writeEntries f start (fatEntriesFor name) name s (fatDirent s.name 0x20 first size mtime s.caseFlags)
          (fatEntriesFor name - 1) 0

/-- `f12_write`; `src off want` is what the callback reads. -/
def f12Write (f : F12) (name : List UInt8) (size mtime : Nat) (src : Nat → Nat → List UInt8) : Io Bool :=
  if name = [] then pure false
  else do
    match ← searchSectors f name f.rootSectors 0 noName with
    | some (some _) =>
      let _ ← f12Remove f chainFuel name
      writeNew f name size mtime src
    | _ => writeNew f name size mtime src

/-- Every sector can be read and written. -/
def Reliable (R : Disk → Request → Outcome → Prop) : Prop := ∀ d r o, R d r o → o.ok = true

/-! ### The directory, sector by sector -/

/-- What the search for free slots has with the slots that are left. -/
def Room.rest (f : F12) (needed : Nat) (slots : List (List UInt8)) (slot : Nat) : Room → Option Nat
  | .ended found => found
  | .goesOn run found => freeRunFrom f needed slots slot run found

/-- What the search for a name has with the slots that are left. -/
def Scan.rest (name : List UInt8) (slots : List (List UInt8)) (slot : Nat) : Scan → Option Found
  | .found x => some x
  | .ended => none
  | .goesOn l => (scanSlots slots slot l).find? fun x => ieq x.entry.name name || ieq x.short name

section Directory

variable {f : F12} {d : Disk} {R : Disk → Request → Outcome → Prop} {name : List UInt8}
  {slots more : List (List UInt8)} {needed slot sn sectors : Nat}

theorem freeRunFrom_append {run : Option (Nat × Nat)} {found : Option Nat} :
    freeRunFrom f needed (slots ++ more) slot run found =
      (roomSlots f needed slots slot run found).rest f needed more (slot + slots.length) := by
  induction slots generalizing slot run found with
  | nil => rfl
  | cons e slots ih =>
    have next : slot + 1 + slots.length = slot + (e :: slots).length := by
      rw [List.length_cons]
      omega
    rw [List.cons_append, freeRunFrom, roomSlots]
    split
    · dsimp only
      split
      · rfl
      · rw [ih, next]
    · rw [ih, next]

theorem find?_scanSlots_append {l : LongName} :
    ((scanSlots (slots ++ more) slot l).find? fun x => ieq x.entry.name name || ieq x.short name) =
      (searchSlots name slots slot l).rest name more (slot + slots.length) := by
  induction slots generalizing slot l with
  | nil => rfl
  | cons e slots ih =>
    have next : slot + 1 + slots.length = slot + (e :: slots).length := by
      rw [List.length_cons]
      omega
    rw [List.cons_append, scanSlots, searchSlots]
    dsimp only
    split
    · rfl
    split
    · rw [ih, next]
    split
    · rw [ih, next]
    split
    · rw [ih, next]
    rw [List.find?_cons]
    split
    · rename_i hit
      rw [if_pos hit]
      rfl
    · rename_i miss
      rw [if_neg (by rw [miss]; decide), ih, next]

/-- The slots of some sectors of the directory. -/
def slotsFrom (f : F12) (d : Disk) (sn sectors : Nat) : List (List UInt8) :=
  (List.range' (sn * 16) (sectors * 16)).map (slotAt f d)

theorem slotsFrom_succ : slotsFrom f d sn (sectors + 1) =
    slotsOf (d.read (f.firstRoot + sn)) ++ slotsFrom f d (sn + 1) sectors := by
  have here : slotsOf (d.read (f.firstRoot + sn)) = (List.range' (sn * 16) 16).map (slotAt f d) := by
    rw [slotsOf, List.range'_eq_map_range, List.map_map]
    refine List.map_congr_left fun i hi => ?_
    rw [List.mem_range] at hi
    have div : (sn * 16 + i) / 16 = sn := by omega
    have mod : (sn * 16 + i) % 16 = i := by omega
    rw [Function.comp_apply, slotAt, div, mod]
  rw [here, slotsFrom, slotsFrom, ← List.map_append, Nat.add_mul sn, Nat.one_mul, List.range'_append_1,
    Nat.add_mul, Nat.one_mul, Nat.add_comm (sectors * 16)]

theorem length_slotsOf (sec : List UInt8) : (slotsOf sec).length = 16 := by
  rw [slotsOf, List.length_map, List.length_range]

theorem slotsFrom_zero : slotsFrom f d 0 f.rootSectors = rootSlots f d := by
  rw [slotsFrom, rootSlots, Nat.zero_mul, List.range_eq_range']

/-- The search finds what is in the directory, or a sector cannot be read. -/
theorem searchSectors_ensures {l : LongName} :
    (searchSectors f name sectors sn l).ensures perform R (fun r d' =>
      d' = d ∧ (Reliable R → r ≠ none) ∧
        (r = none ∨ r = some ((scanSlots (slotsFrom f d sn sectors) (sn * 16) l).find? fun x =>
          ieq x.entry.name name || ieq x.short name))) d := by
  induction sectors generalizing sn l with
  | zero => exact ⟨rfl, fun _ => Option.some_ne_none _, .inr (by rw [slotsFrom, Nat.zero_mul]; rfl)⟩
  | succ sectors ih =>
    have tail : sn * 16 + 16 = (sn + 1) * 16 := by omega
    rw [searchSectors, ensures_call_bind, slotsFrom_succ, find?_scanSlots_append, length_slotsOf, tail]
    intro o allowed
    simp only [perform]
    by_cases ok : o.ok = true
    · simp only [ok, if_true]
      cases searchSlots name (slotsOf (d.read (f.firstRoot + sn))) (sn * 16) l with
      | found x => exact ⟨rfl, fun _ => Option.some_ne_none _, .inr rfl⟩
      | ended => exact ⟨rfl, fun _ => Option.some_ne_none _, .inr rfl⟩
      | goesOn l => exact ih
    · simp only [ok, if_false, Bool.false_eq_true]
      exact ⟨rfl, fun reliable => absurd (reliable _ _ _ allowed) ok, .inl rfl⟩

/-- The search for free slots finds the first run of them, or a sector cannot be read. -/
theorem roomSectors_ensures {run : Option (Nat × Nat)} {found : Option Nat} :
    (roomSectors f needed sectors sn run found).ensures perform R (fun r d' =>
      d' = d ∧ (Reliable R → r ≠ none) ∧
        (r = none ∨ r = some (freeRunFrom f needed (slotsFrom f d sn sectors) (sn * 16) run found))) d := by
  induction sectors generalizing sn run found with
  | zero => exact ⟨rfl, fun _ => Option.some_ne_none _, .inr (by rw [slotsFrom, Nat.zero_mul]; rfl)⟩
  | succ sectors ih =>
    have tail : sn * 16 + 16 = (sn + 1) * 16 := by omega
    rw [roomSectors, ensures_call_bind, slotsFrom_succ, freeRunFrom_append, length_slotsOf, tail]
    intro o allowed
    simp only [perform]
    by_cases ok : o.ok = true
    · simp only [ok, if_true]
      cases roomSlots f needed (slotsOf (d.read (f.firstRoot + sn))) (sn * 16) run found with
      | ended found => exact ⟨rfl, fun _ => Option.some_ne_none _, .inr rfl⟩
      | goesOn run found => exact ih
    · simp only [ok, if_false, Bool.false_eq_true]
      exact ⟨rfl, fun reliable => absurd (reliable _ _ _ allowed) ok, .inl rfl⟩

end Directory

end RPCortex.Fat12.Fault
