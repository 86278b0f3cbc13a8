import RPCortex.Fat12.Write

/-! The regions of a FAT12 volume.  The table, the root directory and the clusters lie one behind the
other; what writes one of them leaves the other two alone, and every chain of the table stays on the
volume. -/

namespace RPCortex.Fat12

open Lib

/-- A volume whose table has room for every cluster and ends before the root directory. -/
structure F12.Sound (f : F12) : Prop where
  table : ∀ c < f.clusters + 2, f.fatAt (c + c / 2 + 1) < f.firstRoot * 512
  data : f.firstRoot + f.rootSectors ≤ f.firstData

/-- Every chain goes on inside the volume. -/
def Chained (f : F12) (d : Disk) : Prop :=
  ∀ c, 2 ≤ c → c < f.clusters + 2 → inChain (fatGet f d c) = true → fatGet f d c < f.clusters + 2

/-- What a change of the table or of the clusters keeps. -/
structure Kept (f : F12) (d d' : Disk) : Prop where
  chained : Chained f d'
  root : rootSlots f d' = rootSlots f d

theorem Kept.trans {f : F12} {d d' d'' : Disk} (h : Kept f d d') (h' : Kept f d' d'') :
    Kept f d d'' := ⟨h'.chained, h'.root.trans h.root⟩

variable {f : F12} {d d' : Disk} {c v slot lba : Nat} {e : List UInt8}

/-! ### Regions -/

/-- The address of a slot. -/
def F12.slotAddr (f : F12) (slot : Nat) : Nat := f.firstRoot * 512 + slot * 32

theorem slotAddr_eq : (f.firstRoot + slot / 16) * 512 + slot % 16 * 32 = f.slotAddr slot := by
  unfold F12.slotAddr
  omega

theorem slotAt_eq : slotAt f d slot = window d.bytes (f.slotAddr slot) 32 := by
  have at_ : slot % 16 * 32 + 32 ≤ 512 := by omega
  rw [slotAt, Disk.read, drop_window (by omega), take_window (by omega), slotAddr_eq]

theorem length_slotAt : (slotAt f d slot).length = 32 := by rw [slotAt_eq, length_window]

theorem length_rootSlots : (rootSlots f d).length = f.rootSectors * 16 := by simp [rootSlots]

theorem rootSlots_congr (h : ∀ a, f.firstRoot * 512 ≤ a → a < (f.firstRoot + f.rootSectors) * 512 →
    d'.bytes a = d.bytes a) : rootSlots f d' = rootSlots f d := by
  refine List.map_congr_left fun slot hs => ?_
  rw [List.mem_range] at hs
  rw [slotAt_eq, slotAt_eq]
  refine window_congr fun i hi => h _ ?_ ?_ <;> unfold F12.slotAddr <;> omega

theorem fatGet_congr (sound : f.Sound) (hc : c < f.clusters + 2)
    (h : ∀ a, a < f.firstRoot * 512 → d'.bytes a = d.bytes a) : fatGet f d' c = fatGet f d c := by
  have last := sound.table c hc
  have next : f.fatAt (c + c / 2 + 1) = f.fatAt (c + c / 2) + 1 := by
    unfold F12.fatAt
    omega
  rw [fatGet, fatGet, fatByte_eq, fatByte_eq, fatByte_eq, fatByte_eq, h _ last, h _ (by omega)]

theorem Chained.congr (sound : f.Sound) (chained : Chained f d)
    (h : ∀ a, a < f.firstRoot * 512 → d'.bytes a = d.bytes a) : Chained f d' := by
  intro c two last
  rw [fatGet_congr sound last h]
  exact chained c two last

/-! ### The table -/

theorem rootSlots_fatSet (sound : f.Sound) (hc : c < f.clusters + 2) :
    rootSlots f (fatSet f d c v) = rootSlots f d := by
  have last := sound.table c hc
  exact rootSlots_congr fun a front _ => fatSet_outside (Or.inr (by omega))

theorem fatSet_kept (sound : f.Sound) (chained : Chained f d) (hc : c < f.clusters + 2)
    (lt : v < 4096) (hv : inChain v = true → v < f.clusters + 2) : Kept f d (fatSet f d c v) where
  chained := by
    intro e two last on
    rw [fatGet_fatSet lt] at on ⊢
    split at on
    · rw [if_pos ‹_›]
      exact hv on
    · rw [if_neg ‹_›]
      exact chained e two last on
  root := rootSlots_fatSet sound hc

theorem inChain_iff : inChain c = true ↔ 2 ≤ c ∧ c < 0xFF8 := by simp [inChain]

theorem freeChain_kept (sound : f.Sound) {fuel : Nat} (chained : Chained f d)
    (hc : inChain c = true → c < f.clusters + 2) : Kept f d (freeChain f fuel d c) := by
  induction fuel generalizing d c with
  | zero => exact ⟨chained, rfl⟩
  | succ fuel ih =>
    rw [freeChain]
    split
    · rename_i on
      have freed : Kept f d (fatSet f d c 0) :=
        fatSet_kept sound chained (hc on) (by decide) fun no => absurd no (by decide)
      exact freed.trans (ih freed.chained (chained c (inChain_iff.mp on).1 (hc on)))
    · exact ⟨chained, rfl⟩

/-- A cluster of the volume. -/
def F12.Has (f : F12) (c : Nat) : Prop := 2 ≤ c ∧ c < f.clusters + 2

theorem allocCluster_kept (sound : f.Sound) {after : Nat} (chained : Chained f d)
    (h : after ≠ 0 → f.Has after) {r : Nat × Disk} (some_ : allocCluster f d after = some r) :
    f.Has r.1 ∧ Kept f d r.2 := by
  obtain ⟨c, found, rfl⟩ := Option.map_eq_some_iff.mp some_
  have mem := List.mem_of_find?_eq_some found
  rw [List.mem_range'_1] at mem
  have has : f.Has c := ⟨mem.1, by omega⟩
  have small := f.clusters_lt
  have taken : Kept f d (fatSet f d c 0xFFF) :=
    fatSet_kept sound chained has.2 (by decide) fun no => absurd no (by decide)
  refine ⟨has, ?_⟩
  dsimp only
  split
  · exact taken.trans (fatSet_kept sound taken.chained (h ‹_›).2 (by unfold F12.Has at has; omega)
      fun _ => has.2)
  · exact taken

/-! ### The clusters -/

theorem write_data_kept (sound : f.Sound) (e : List UInt8) (chained : Chained f d)
    (h : f.firstData ≤ lba) :
    Kept f d (d.write lba e) := by
  have data := sound.data
  have outside (a : Nat) (ha : a < (f.firstRoot + f.rootSectors) * 512) :
      (d.write lba e).bytes a = d.bytes a := by
    have front : a < lba * 512 := lt_of_lt_of_le ha (Nat.mul_le_mul_right _ (by omega))
    show store d.bytes (lba * 512) e a = d.bytes a
    rw [store_outside (Or.inl front)]
  have root : f.firstRoot * 512 ≤ (f.firstRoot + f.rootSectors) * 512 :=
    Nat.mul_le_mul_right _ (Nat.le_add_right _ _)
  refine ⟨chained.congr sound fun a ha => ?_, rootSlots_congr fun a _ ha => ?_⟩
  · exact outside a (lt_of_lt_of_le ha root)
  · exact outside a ha

theorem writeCluster_kept (sound : f.Sound) (src : Nat → Nat → List UInt8)
    (size c sectors sn done : Nat)
    (chained : Chained f d) : Kept f d (writeCluster f src size c sectors sn done d).2 := by
  induction sectors generalizing sn done d with
  | zero => exact ⟨chained, rfl⟩
  | succ sectors ih =>
    rw [writeCluster]
    dsimp only
    split
    · exact ⟨chained, rfl⟩
    · split
      · exact ⟨chained, rfl⟩
      · have written := write_data_kept sound (src done (min 512 (size - done)) ++
          List.replicate (512 - min 512 (size - done)) 0) chained
          (by omega : f.firstData ≤ f.firstData + (c - 2) * f.spc + sn)
        exact written.trans (ih _ _ written.chained)

theorem writeData_kept (sound : f.Sound) (src : Nat → Nat → List UInt8) (size fuel done : Nat)
    {first prev : Nat}
    (chained : Chained f d) (hf : first ≠ 0 → f.Has first) (hp : prev ≠ 0 → f.Has prev) :
    Kept f d (writeData f src size fuel first prev done d).2 ∧
      ∀ c, (writeData f src size fuel first prev done d).1 = some c → c ≠ 0 → f.Has c := by
  induction fuel generalizing first prev done d with
  | zero =>
    refine ⟨⟨chained, rfl⟩, fun c hc => ?_⟩
    obtain rfl := Option.some.inj hc
    exact hf
  | succ fuel ih =>
    rw [writeData]
    split
    · refine ⟨⟨chained, rfl⟩, fun c hc => ?_⟩
      obtain rfl := Option.some.inj hc
      exact hf
    cases got : allocCluster f d prev with
    | none =>
      refine ⟨?_, fun c hc => nomatch hc⟩
      dsimp only
      split
      · exact freeChain_kept sound chained fun _ => (hf ‹_›).2
      · exact ⟨chained, rfl⟩
    | some r =>
      obtain ⟨has, taken⟩ := allocCluster_kept sound chained hp got
      have first' : f.Has (if first = 0 then r.1 else first) := by
        split
        · exact has
        · exact hf ‹_›
      have written := writeCluster_kept sound src size r.1 f.spc 0 done taken.chained
      have both := taken.trans written
      dsimp only
      cases out : writeCluster f src size r.1 f.spc 0 done r.2 with
      | mk o d' =>
        rw [out] at both
        cases o with
        | none =>
          exact ⟨both.trans (freeChain_kept sound both.chained fun _ => first'.2),
            fun c hc => nomatch hc⟩
        | some done' =>
          have rest := ih done' both.chained (fun _ => first') fun _ => has
          exact ⟨both.trans rest.1, rest.2⟩

/-! ### The directory -/

/-- A slot that is written into its sector. -/
theorem store_slot {m : Nat → UInt8} {start at_ : Nat} (inside : at_ + 32 ≤ 512) (len : e.length = 32) :
    store m start ((window m start 512).take at_ ++ e ++ (window m start 512).drop (at_ + 32)) =
      store m (start + at_) e := by
  have take : (window m start 512).take at_ = window m start at_ := take_window (by omega)
  have drop : (window m start 512).drop (at_ + 32) =
      window m (start + (at_ + 32)) (512 - (at_ + 32)) := drop_window inside
  funext a
  rw [take, drop]
  by_cases front : start ≤ a ∧ a < start + 512
  · obtain ⟨k, rfl⟩ := Nat.exists_eq_add_of_le front.1
    have hk : k < (window m start at_ ++ e ++
        window m (start + (at_ + 32)) (512 - (at_ + 32))).length := by
      simp only [List.length_append, length_window, len]
      omega
    rw [store_inside hk]
    simp only [List.getElem_append, List.length_append, length_window, len, getElem_window]
    split
    · split
      · rw [store_outside (by omega)]
      · have place : start + k = start + at_ + (k - at_) := by omega
        rw [place, store_inside (by omega)]
    · have place : start + (at_ + 32) + (k - (at_ + 32)) = start + k := by omega
      rw [store_outside (by omega), place]
  · rw [store_outside, store_outside (by omega)]
    simp only [List.length_append, length_window, len]
    omega

theorem bytes_dirWriteSlot (len : e.length = 32) :
    (dirWriteSlot f d slot e).bytes = store d.bytes (f.slotAddr slot) e := by
  have at_ : slot % 16 * 32 + 32 ≤ 512 := by omega
  simp only [dirWriteSlot, Disk.write, Disk.read]
  rw [store_slot at_ len, slotAddr_eq]

theorem dirWriteSlot_chained (sound : f.Sound) (chained : Chained f d) (len : e.length = 32) :
    Chained f (dirWriteSlot f d slot e) := by
  refine chained.congr sound fun a ha => ?_
  have front : a < f.slotAddr slot := lt_of_lt_of_le ha (Nat.le_add_right _ _)
  rw [bytes_dirWriteSlot len, store_outside (Or.inl front)]

theorem rootSlots_dirWriteSlot (len : e.length = 32) :
    rootSlots f (dirWriteSlot f d slot e) = (rootSlots f d).set slot e := by
  refine List.ext_getElem (by simp [rootSlots]) fun i h _ => ?_
  rw [List.getElem_set]
  simp only [rootSlots, List.getElem_map, List.getElem_range, slotAt_eq, bytes_dirWriteSlot len]
  split
  · rename_i same
    rw [← same, ← len]
    exact window_store_same
  · refine window_store_outside ?_
    unfold F12.slotAddr
    omega

/-- Slots that are written one behind the other. -/
theorem rootSlots_foldl (sound : f.Sound) {g : Nat → List UInt8} (len : ∀ i, (g i).length = 32)
    {n : Nat} {front old back : List (List UInt8)} (before : rootSlots f d = front ++ old ++ back)
    (count : old.length = n) (chained : Chained f d) :
    let d' := (List.range n).foldl (fun d i => dirWriteSlot f d (front.length + i) (g i)) d
    Chained f d' ∧ rootSlots f d' = front ++ (List.range n).map g ++ back := by
  induction n generalizing old back with
  | zero =>
    obtain rfl := List.length_eq_zero_iff.mp count
    exact ⟨chained, by simpa using before⟩
  | succ n ih =>
    obtain rfl | ⟨old, x, rfl⟩ := List.eq_nil_or_concat' old
    · exact absurd count (Nat.succ_ne_zero n).symm
    have count' : old.length = n := by simpa using count
    have before' : rootSlots f d = front ++ old ++ x :: back := by simpa using before
    obtain ⟨chained', after⟩ := ih before' count'
    simp only [List.range_succ, List.foldl_append, List.foldl_cons, List.foldl_nil, List.map_append,
      List.map_cons, List.map_nil]
    refine ⟨dirWriteSlot_chained sound chained' (len n), ?_⟩
    rw [rootSlots_dirWriteSlot (len n), after, List.append_assoc, List.set_append_right _ _ (by omega),
      Nat.add_sub_cancel_left, List.set_append_right _ _ (by simp)]
    simp

end RPCortex.Fat12
