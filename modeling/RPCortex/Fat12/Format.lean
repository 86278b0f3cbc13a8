import RPCortex.Fat12.Frame
import RPCortex.Fat12.Settle
import RPCortex.Lib.Text

/-! `f12_format`: laying down an empty volume.  Its table has room for every cluster, no cluster is
taken, and the root directory holds the label only. -/

namespace RPCortex.Fat12

open Lib

/-- The boot sector. -/
def bootSector (f : F12) (label : List UInt8) (serial : Nat) : List UInt8 :=
  let total := f.firstData + f.clusters * f.spc
  [0xEB, 0x3C, 0x90] ++ ascii "MSWIN4.1" ++ leEncode 2 512 ++ [.ofNat f.spc] ++
    leEncode 2 f.reserved ++ [.ofNat f.numFats] ++ leEncode 2 f.rootEntries ++
    leEncode 2 (if total < 0x10000 then total else 0) ++ [0xF8] ++ leEncode 2 f.fatSectors ++
    leEncode 2 63 ++ leEncode 2 255 ++ [0, 0, 0, 0] ++
    leEncode 4 (if total < 0x10000 then 0 else total) ++ [0x80, 0, 0x29] ++
    leEncode 4 (if serial = 0 then 0x52504332 else serial) ++ padTo 11 (label.take 11) ++
    ascii "FAT12   " ++ List.replicate 448 0 ++ [0x55, 0xAA]

/-- Some sectors that are filled with zeros. -/
def zeroSectors (d : Disk) (first n : Nat) : Disk :=
  (List.range n).foldl (fun d i => d.write (first + i) (List.replicate 512 0)) d

/-- `f12_format` of a medium of `total` sectors. -/
def f12Format (total : Nat) (d : Disk) (label : List UInt8) (serial : Nat) : Option (F12 × Disk) :=
  match settle total 8 1 0 with
  | none => none
  | some (fatSectors, clusters) =>
    if clusters = 0 then none
    else
      let f := formatted fatSectors clusters
      let d := d.write 0 (bootSector f label serial)
      let d := zeroSectors (zeroSectors d f.firstFat (fatSectors * f.numFats)) f.firstRoot 8
      let d := fatSet f (fatSet f d 0 0xFF8) 1 0xFFF
      some (f, dirWriteSlot f d 0 (fatDirentLabel label))

variable {f : F12} {d d' : Disk} {total serial : Nat} {label : List UInt8}

/-! ### The table -/

@[simp] theorem rootSectors_formatted {fatSectors clusters : Nat} :
    (formatted fatSectors clusters).rootSectors = 8 := by simp [F12.rootSectors, formatted]

theorem formatted_sound {fatSectors clusters : Nat} (holds : (formatted fatSectors clusters).HoldsEntries) :
    (formatted fatSectors clusters).Sound where
  table := by
    intro c hc
    have lt : c < min clusters 4084 + 2 := hc
    rw [holdsEntries_formatted] at holds
    show 1 * 512 + (c + c / 2 + 1) < (1 + fatSectors) * 512
    omega
  data := by
    rw [rootSectors_formatted]
    exact le_rfl

/-! ### The empty volume -/

set_option maxRecDepth 4000 in
/-- Zeros fill their sectors, and nothing else changes. -/
theorem bytes_zeroSectors {first n a : Nat} : (zeroSectors d first n).bytes a =
    if first * 512 ≤ a ∧ a < (first + n) * 512 then 0 else d.bytes a := by
  induction n with
  | zero =>
    rw [if_neg (by omega)]
    rfl
  | succ n ih =>
    have last : (zeroSectors d first (n + 1)).bytes =
        store (zeroSectors d first n).bytes ((first + n) * 512) (List.replicate 512 0) := by
      rw [zeroSectors, List.range_succ, List.foldl_append]
      rfl
    obtain ⟨zeros, hz⟩ : ∃ zeros : List UInt8, zeros = List.replicate 512 0 := ⟨_, rfl⟩
    have len : zeros.length = 512 := by rw [hz, List.length_replicate]
    have zero : ∀ x ∈ zeros, x = 0 := fun x hx => List.eq_of_mem_replicate (hz ▸ hx)
    rw [last, ← hz]
    by_cases inside : (first + n) * 512 ≤ a ∧ a < (first + n + 1) * 512
    · obtain ⟨k, rfl⟩ := Nat.exists_eq_add_of_le inside.1
      rw [store_inside (by omega), if_pos (by omega)]
      exact zero _ (List.getElem_mem _)
    · rw [store_outside (by omega), ih]
      by_cases front : first * 512 ≤ a ∧ a < (first + n) * 512
      · rw [if_pos front, if_pos (by omega)]
      · rw [if_neg front, if_neg (by omega)]

/-- A slot that was never used. -/
def blankSlot : List UInt8 := List.replicate 32 0

theorem length_fatDirent {name : List UInt8} (attr flags : UInt8) (first size mtime : Nat)
    (h : name.length = 11) : (fatDirent name attr first size mtime flags).length = 32 := by
  simp [fatDirent, h]

theorem length_fatDirentLabel : (fatDirentLabel label).length = 32 :=
  length_fatDirent _ _ _ _ _ (length_padTo (List.length_take_le _ _))

theorem rootSlots_of_zero (h : ∀ a, f.firstRoot * 512 ≤ a →
    a < (f.firstRoot + f.rootSectors) * 512 → d.bytes a = 0) :
    rootSlots f d = List.replicate (f.rootSectors * 16) blankSlot := by
  refine List.eq_replicate_iff.mpr ⟨length_rootSlots, fun e he => ?_⟩
  obtain ⟨slot, hs, rfl⟩ := List.mem_map.mp he
  rw [List.mem_range] at hs
  rw [slotAt_eq]
  refine (window_eq fun i hi => ?_ :
    window d.bytes (f.slotAddr slot) blankSlot.length = blankSlot)
  have lt : i < 32 := by simpa [blankSlot] using hi
  rw [h _ (by unfold F12.slotAddr; omega) (by unfold F12.slotAddr; omega)]
  show 0 = (List.replicate 32 (0 : UInt8)).get ⟨i, hi⟩
  rw [List.get_eq_getElem, List.getElem_replicate]

set_option maxRecDepth 4000 in
/-- A fresh volume whose table has room: its geometry, and a root directory with the label only. -/
theorem f12Format_fresh (roomy : Roomy total) (h : f12Format total d label serial = some (f, d')) :
    f.Sound ∧ f.rootEntries = 128 ∧ f.rootSectors = 8 ∧ Chained f d' ∧
      rootSlots f d' = fatDirentLabel label :: List.replicate 127 blankSlot := by
  unfold f12Format at h
  cases settled : settle total 8 1 0 with
  | none =>
    rw [settled] at h
    cases h
  | some r =>
    rw [settled] at h
    dsimp only at h
    split at h
    · cases h
    obtain ⟨fatSectors, clusters⟩ := r
    have most : total < 2 ^ 32 := by
      unfold Roomy at roomy
      omega
    obtain ⟨-, -, -, roomy_iff, -⟩ := settle_cases settled most
    simp only [Option.some.injEq, Prod.mk.injEq] at h
    obtain ⟨rfl, rfl⟩ := h
    have sound := formatted_sound (roomy_iff.mpr roomy)
    refine ⟨sound, rfl, rootSectors_formatted, ?_⟩
    generalize hz : zeroSectors (zeroSectors _ _ _) _ 8 = z
    have zero (a : Nat) (front : 512 ≤ a) (behind : a < (1 + fatSectors + 8) * 512) :
        z.bytes a = 0 := by
      rw [← hz, bytes_zeroSectors, bytes_zeroSectors]
      show (if (1 + fatSectors) * 512 ≤ a ∧ a < (1 + fatSectors + 8) * 512 then
        (0 : UInt8) else if 1 * 512 ≤ a ∧ a < (1 + fatSectors * 1) * 512 then 0 else _) = 0
      by_cases root : (1 + fatSectors) * 512 ≤ a
      · rw [if_pos ⟨root, behind⟩]
      · rw [if_neg (by omega), if_pos (by omega)]
    clear hz
    generalize hf : formatted fatSectors clusters = f at sound ⊢
    have first : f.firstFat = 1 := by rw [← hf]; rfl
    have root : f.firstRoot = 1 + fatSectors := by rw [← hf]; rfl
    have sectors : f.rootSectors = 8 := by rw [← hf, rootSectors_formatted]
    have free (c : Nat) (two : 2 ≤ c) (last : c < f.clusters + 2) : fatGet f z c = 0 := by
      have table := sound.table c last
      rw [root] at table
      rw [fatGet, fatByte_eq, fatByte_eq]
      unfold F12.fatAt at table ⊢
      rw [first] at table ⊢
      rw [zero _ (by omega) (by omega), zero _ (by omega) (by omega)]
      split <;> rfl
    have marked : Chained f (fatSet f (fatSet f z 0 0xFF8) 1 0xFFF) := by
      intro c two last on
      rw [fatGet_fatSet (by decide), if_neg (by omega), fatGet_fatSet (by decide), if_neg (by omega),
        free c two last] at on
      exact absurd on (by decide)
    refine ⟨dirWriteSlot_chained sound marked length_fatDirentLabel, ?_⟩
    rw [rootSlots_dirWriteSlot length_fatDirentLabel, rootSlots_of_zero, sectors]
    · rfl
    · intro a front behind
      have table := sound.table 1 (by omega)
      unfold F12.fatAt at table
      rw [fatSet_outside (by unfold F12.fatAt; omega), fatSet_outside (by unfold F12.fatAt; omega)]
      exact zero a (by omega) (by omega)

end RPCortex.Fat12
