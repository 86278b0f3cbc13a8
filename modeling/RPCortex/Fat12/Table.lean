import RPCortex.Fat12.Volume
import RPCortex.Lib.Run

/-! The allocation table of a FAT12 volume, `fat12.cpp`: twelve-bit entries, two in three bytes, on a
medium whose sectors can be read and written.  Setting an entry changes that entry only. -/

namespace RPCortex.Fat12

open Lib

/-- `write`. -/
def Disk.write (d : Disk) (lba : Nat) (sec : List UInt8) : Disk := ⟨store d.bytes (lba * 512) sec⟩

/-- `fat_byte_set`. -/
def fatByteSet (f : F12) (d : Disk) (off : Nat) (mask value : UInt8) : Disk :=
  let lba := f.firstFat + off / 512
  let sec := d.read lba
  let b := sec.getD (off % 512) 0
  d.write lba (sec.set (off % 512) ((b &&& ~~~mask) ||| (value &&& mask)))

/-- `fat_set`. -/
def fatSet (f : F12) (d : Disk) (cluster value : Nat) : Disk :=
  let off := cluster + cluster / 2
  let value := value &&& 0x0FFF
  if cluster % 2 = 1 then
    fatByteSet f (fatByteSet f d off 0xF0 (.ofNat (value <<< 4))) (off + 1) 0xFF (.ofNat (value >>> 4))
  else
    fatByteSet f (fatByteSet f d off 0xFF (.ofNat value)) (off + 1) 0x0F (.ofNat (value >>> 8))

variable {f : F12} {d : Disk} {off : Nat} {mask value : UInt8} {c e v : Nat}

/-! ### Bytes of the table -/

/-- The address of a byte of the table. -/
def F12.fatAt (f : F12) (off : Nat) : Nat := f.firstFat * 512 + off

theorem sector_address (first off : Nat) :
    (first + off / 512) * 512 + off % 512 = first * 512 + off := by
  have := Nat.div_add_mod off 512
  rw [Nat.add_mul]
  omega

theorem getD_window (m : Nat → UInt8) (start : Nat) {n i : Nat} (h : i < n) :
    (window m start n).getD i 0 = m (start + i) := by
  rw [List.getD_eq_getElem _ _ (by simpa using h), getElem_window]

theorem fatByte_eq (f : F12) (d : Disk) (off : Nat) : fatByte f d off = d.bytes (f.fatAt off) := by
  rw [fatByte, Disk.read, getD_window _ _ (Nat.mod_lt _ (by decide)), sector_address]
  rfl

/-- A byte of a window that is written back. -/
theorem store_window_set (m : Nat → UInt8) (start : Nat) {n i : Nat} (h : i < n) (b : UInt8) :
    store m start ((window m start n).set i b) = upd m (start + i) b := by
  funext a
  by_cases inside : start ≤ a ∧ a < start + n
  · obtain ⟨k, rfl⟩ := Nat.exists_eq_add_of_le inside.1
    have hk : k < ((window m start n).set i b).length := by
      rw [List.length_set, length_window]
      omega
    rw [store_inside hk, upd_apply, List.getElem_set]
    by_cases same : i = k
    · simp [same]
    · rw [if_neg same, if_neg (by omega), getElem_window]
  · rw [store_outside, upd_ne (by omega)]
    rw [List.length_set, length_window]
    omega

theorem bytes_fatByteSet : (fatByteSet f d off mask value).bytes =
    upd d.bytes (f.fatAt off) ((d.bytes (f.fatAt off) &&& ~~~mask) ||| (value &&& mask)) := by
  have lt : off % 512 < 512 := Nat.mod_lt _ (by decide)
  simp only [fatByteSet, Disk.write, Disk.read]
  rw [getD_window _ _ lt, store_window_set _ _ lt, sector_address]
  rfl

/-! ### Nibbles -/

theorem and_high : ∀ v : UInt8, v.toNat &&& 0xF0 = (v.toNat / 16) <<< 4 := by decide +kernel

theorem shiftLeft_or {a b : Nat} (lt : b < 2 ^ 4) : a <<< 4 ||| b = 16 * a + b := by
  rw [← Nat.shiftLeft_add_eq_or_of_lt lt, Nat.shiftLeft_eq]
  omega

theorem toNat_setHigh (b v : UInt8) :
    ((b &&& ~~~(0xF0 : UInt8)) ||| (v &&& 0xF0)).toNat = 16 * (v.toNat / 16) + b.toNat % 16 := by
  have low : b.toNat &&& 0x0F = b.toNat % 16 := Nat.and_two_pow_sub_one_eq_mod b.toNat 4
  have lt : b.toNat % 16 < 2 ^ 4 := Nat.mod_lt _ (by decide)
  have mask : (~~~(0xF0 : UInt8)).toNat = 0x0F := rfl
  have high : (0xF0 : UInt8).toNat = 0xF0 := rfl
  rw [UInt8.toNat_or, UInt8.toNat_and, UInt8.toNat_and, mask, high, low, and_high, Nat.or_comm,
    shiftLeft_or lt]

theorem toNat_setLow (b v : UInt8) :
    ((b &&& ~~~(0x0F : UInt8)) ||| (v &&& 0x0F)).toNat = 16 * (b.toNat / 16) + v.toNat % 16 := by
  have low : v.toNat &&& 0x0F = v.toNat % 16 := Nat.and_two_pow_sub_one_eq_mod v.toNat 4
  have lt : v.toNat % 16 < 2 ^ 4 := Nat.mod_lt _ (by decide)
  have mask : (~~~(0x0F : UInt8)).toNat = 0xF0 := rfl
  have high : (0x0F : UInt8).toNat = 0x0F := rfl
  rw [UInt8.toNat_or, UInt8.toNat_and, UInt8.toNat_and, mask, high, low, and_high,
    shiftLeft_or lt]

theorem toNat_setAll (b v : UInt8) :
    ((b &&& ~~~(0xFF : UInt8)) ||| (v &&& 0xFF)).toNat = v.toNat := by
  have mask : (~~~(0xFF : UInt8)) = 0 := rfl
  have all : (0xFF : UInt8) = -1 := rfl
  rw [mask, all, UInt8.and_zero, UInt8.zero_or, UInt8.and_neg_one]

/-! ### Entries -/

theorem fatGet_odd (odd : c % 2 = 1) : fatGet f d c =
    16 * (d.bytes (f.fatAt (c + c / 2 + 1))).toNat + (d.bytes (f.fatAt (c + c / 2))).toNat / 16 := by
  have lt : (d.bytes (f.fatAt (c + c / 2))).toNat / 16 < 2 ^ 4 := by
    have := (d.bytes (f.fatAt (c + c / 2))).toNat_lt
    omega
  simp only [fatGet, if_pos odd, fatByte_eq]
  rw [Nat.shiftRight_eq_div_pow, Nat.or_comm, ← Nat.shiftLeft_add_eq_or_of_lt lt, Nat.shiftLeft_eq]
  omega

theorem fatGet_even (even : ¬c % 2 = 1) : fatGet f d c =
    256 * ((d.bytes (f.fatAt (c + c / 2 + 1))).toNat % 16) +
      (d.bytes (f.fatAt (c + c / 2))).toNat := by
  have low : (d.bytes (f.fatAt (c + c / 2 + 1))).toNat &&& 0x0F =
      (d.bytes (f.fatAt (c + c / 2 + 1))).toNat % 16 := Nat.and_two_pow_sub_one_eq_mod _ 4
  simp only [fatGet, if_neg even, fatByte_eq]
  rw [low, Nat.or_comm, ← Nat.shiftLeft_add_eq_or_of_lt (d.bytes _).toNat_lt, Nat.shiftLeft_eq]
  omega

theorem fatAt_inj {i j : Nat} : f.fatAt i = f.fatAt j ↔ i = j := by
  unfold F12.fatAt
  omega

/-- What setting an entry makes of the bytes of the table. -/
theorem toNat_fatSet (lt : v < 4096) (i : Nat) : ((fatSet f d c v).bytes (f.fatAt i)).toNat =
    if i = c + c / 2 then
      if c % 2 = 1 then 16 * (v % 16) + (d.bytes (f.fatAt i)).toNat % 16 else v % 256
    else if i = c + c / 2 + 1 then
      if c % 2 = 1 then v / 16 else 16 * ((d.bytes (f.fatAt i)).toNat / 16) + v / 256
    else (d.bytes (f.fatAt i)).toNat := by
  have small : v &&& 0x0FFF = v := by
    have := Nat.and_two_pow_sub_one_eq_mod v 12
    rw [show (0x0FFF : Nat) = 2 ^ 12 - 1 from rfl, this]
    exact Nat.mod_eq_of_lt (by omega)
  by_cases odd : c % 2 = 1
  · simp only [fatSet, if_pos odd, small, bytes_fatByteSet, upd_apply, fatAt_inj]
    have bit : (UInt8.ofNat (v <<< 4)).toNat / 16 = v % 16 := by
      rw [UInt8.toNat_ofNat', Nat.shiftLeft_eq]
      omega
    have rest : (UInt8.ofNat (v >>> 4)).toNat = v / 16 := by
      rw [UInt8.toNat_ofNat', Nat.shiftRight_eq_div_pow]
      omega
    by_cases first : i = c + c / 2
    · rw [if_neg (by omega), if_pos first, if_pos first, toNat_setHigh, bit, ← first]
    · rw [if_neg first, if_neg first]
      by_cases second : i = c + c / 2 + 1
      · rw [if_pos second, if_pos second, toNat_setAll, rest]
      · rw [if_neg second, if_neg second]
  · simp only [fatSet, if_neg odd, small, bytes_fatByteSet, upd_apply, fatAt_inj]
    have bit : (UInt8.ofNat v).toNat = v % 256 := UInt8.toNat_ofNat'
    have rest : (UInt8.ofNat (v >>> 8)).toNat % 16 = v / 256 := by
      rw [UInt8.toNat_ofNat', Nat.shiftRight_eq_div_pow]
      omega
    by_cases first : i = c + c / 2
    · rw [if_neg (by omega), if_pos first, if_pos first, toNat_setAll, bit]
    · rw [if_neg first, if_neg first]
      by_cases second : i = c + c / 2 + 1
      · rw [if_pos second, if_pos second, toNat_setLow, rest, if_neg (by omega), ← second]
      · rw [if_neg second, if_neg second]

/-- Entries are set one at a time, although they share bytes. -/
theorem fatGet_fatSet (lt : v < 4096) :
    fatGet f (fatSet f d c v) e = if e = c then v else fatGet f d e := by
  have one := toNat_fatSet (f := f) (d := d) (c := c) lt (e + e / 2)
  have two := toNat_fatSet (f := f) (d := d) (c := c) lt (e + e / 2 + 1)
  have small := (d.bytes (f.fatAt (e + e / 2))).toNat_lt
  have small' := (d.bytes (f.fatAt (e + e / 2 + 1))).toNat_lt
  by_cases same : e = c
  · subst same
    rw [if_pos rfl] at one ⊢
    rw [if_neg (by omega), if_pos rfl] at two
    by_cases odd : e % 2 = 1
    · rw [if_pos odd] at one two
      rw [fatGet_odd odd, one, two]
      omega
    · rw [if_neg odd] at one two
      rw [fatGet_even odd, one, two]
      omega
  · -- neighbours share one byte, of which each has a nibble
    rw [if_neg same]
    rw [if_neg (by omega)] at one
    by_cases odd : e % 2 = 1
    · rw [if_neg (by omega), if_neg (by omega)] at two
      rw [fatGet_odd odd, fatGet_odd odd, two]
      by_cases shared : e + e / 2 = c + c / 2 + 1
      · rw [if_pos shared, if_neg (by omega)] at one
        rw [one]
        omega
      · rw [if_neg shared] at one
        rw [one]
    · rw [if_neg (by omega)] at one
      rw [fatGet_even odd, fatGet_even odd, one]
      by_cases shared : e + e / 2 + 1 = c + c / 2
      · rw [if_pos shared, if_pos (by omega)] at two
        rw [two]
        omega
      · rw [if_neg shared, if_neg (by omega)] at two
        rw [two]

/-- Setting an entry changes its two bytes only. -/
theorem fatSet_outside {a : Nat} (h : a < f.fatAt (c + c / 2) ∨ f.fatAt (c + c / 2 + 1) < a) :
    (fatSet f d c v).bytes a = d.bytes a := by
  have next : f.fatAt (c + c / 2 + 1) = f.fatAt (c + c / 2) + 1 := by
    unfold F12.fatAt
    omega
  unfold fatSet
  simp only
  split
  · rw [bytes_fatByteSet, upd_ne (by omega), bytes_fatByteSet, upd_ne (by omega)]
  · rw [bytes_fatByteSet, upd_ne (by omega), bytes_fatByteSet, upd_ne (by omega)]

/-- The sectors of the table have room for the entries 0 to `clusters + 1`. -/
def F12.HoldsEntries (f : F12) : Prop := ((f.clusters + 2) * 3 + 1) / 2 ≤ f.fatSectors * 512

/-- Setting an entry gives it the value and leaves the others, and what changes lies in the sectors
of the table that hold it. -/
theorem fatSet_exact (holds : f.HoldsEntries) (within : c < f.clusters + 2) (lt : v < 4096) :
    fatGet f (fatSet f d c v) c = v ∧
      (∀ e, e ≠ c → fatGet f (fatSet f d c v) e = fatGet f d e) ∧
      ∀ a, (fatSet f d c v).bytes a ≠ d.bytes a →
        (a / 512 = f.firstFat + (c + c / 2) / 512 ∨ a / 512 = f.firstFat + (c + c / 2 + 1) / 512) ∧
          f.firstFat ≤ a / 512 ∧ a / 512 < f.firstFat + f.fatSectors := by
  refine ⟨?_, fun e other => ?_, fun a changed => ?_⟩
  · rw [fatGet_fatSet lt, if_pos rfl]
  · rw [fatGet_fatSet lt, if_neg other]
  · have place : a = f.fatAt (c + c / 2) ∨ a = f.fatAt (c + c / 2 + 1) := by
      by_contra away
      refine changed (fatSet_outside ?_)
      unfold F12.fatAt at away ⊢
      omega
    unfold F12.HoldsEntries at holds
    unfold F12.fatAt at place
    omega

/-- Entry 341 has a byte at the end of the first sector of the table and one in the second. -/
theorem fatSet_exact_straddling :
    let f : F12 := ⟨1, 1, 128, 1, 2, 1, 3, 11, 400, by decide, by decide, by decide⟩
    let d : Disk := ⟨fun a => .ofNat a⟩
    fatGet f (fatSet f d 341 0xABC) 341 = 0xABC ∧
      (∀ e, e ≠ 341 → fatGet f (fatSet f d 341 0xABC) e = fatGet f d e) ∧
      ∀ a, (fatSet f d 341 0xABC).bytes a ≠ d.bytes a →
        (a / 512 = 1 ∨ a / 512 = 2) ∧ 1 ≤ a / 512 ∧ a / 512 < 3 :=
  fatSet_exact (f := ⟨1, 1, 128, 1, 2, 1, 3, 11, 400, by decide, by decide, by decide⟩)
    (by unfold F12.HoldsEntries; decide) (by decide) (by decide)

end RPCortex.Fat12
