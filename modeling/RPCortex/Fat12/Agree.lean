import RPCortex.Fat12.Format
import RPCortex.Fat12.Access

/-! `f12_format` and `f12_mount` on the same medium.  The fields of the boot sector are read back, but
the size of the table has sixteen bits there, and for some sector counts the table is too small. -/

namespace RPCortex.Fat12

open Lib

variable {f : F12} {d d' : Disk} {label : List UInt8} {serial sectors total fatSectors clusters : Nat}

/-! ### The boot sector -/

/-- The fields of the boot sector, one behind the other. -/
theorem bootSector_parts (f : F12) (label : List UInt8) (serial : Nat) : ∃ oem kind blank : List UInt8,
    oem.length = 8 ∧ kind.length = 8 ∧ blank.length = 448 ∧ bootSector f label serial =
      [0xEB, 0x3C, 0x90] ++ (oem ++ (leEncode 2 512 ++ ([.ofNat f.spc] ++ (leEncode 2 f.reserved ++
        ([.ofNat f.numFats] ++ (leEncode 2 f.rootEntries ++ (leEncode 2
          (if f.firstData + f.clusters * f.spc < 0x10000 then f.firstData + f.clusters * f.spc else 0) ++
        ([0xF8] ++ (leEncode 2 f.fatSectors ++ (leEncode 2 63 ++ (leEncode 2 255 ++ ([0, 0, 0, 0] ++
        (leEncode 4
          (if f.firstData + f.clusters * f.spc < 0x10000 then 0 else f.firstData + f.clusters * f.spc) ++
        ([0x80, 0, 0x29] ++ (leEncode 4 (if serial = 0 then 0x52504332 else serial) ++
        (padTo 11 (label.take 11) ++ (kind ++ (blank ++ [0x55, 0xAA])))))))))))))))))) := by
  refine ⟨ascii "MSWIN4.1", ascii "FAT12   ", List.replicate 448 0, by decide, by decide,
    List.length_replicate, ?_⟩
  unfold bootSector
  generalize List.replicate 448 (0 : UInt8) = blank
  generalize ascii "MSWIN4.1" = oem
  generalize ascii "FAT12   " = kind
  dsimp only
  simp only [List.append_assoc]

section Fields

variable {a b : List UInt8} {i k v : Nat}

theorem rd16_skip (h : a.length = k) : rd16 (a ++ b) (i + k) = rd16 b i := by
  rw [rd16, rd16, List.drop_append, List.drop_eq_nil_of_le (by omega), h, Nat.add_sub_cancel,
    List.nil_append]

theorem rd32_skip (h : a.length = k) : rd32 (a ++ b) (i + k) = rd32 b i := by
  rw [rd32, rd32, List.drop_append, List.drop_eq_nil_of_le (by omega), h, Nat.add_sub_cancel,
    List.nil_append]

theorem getD_skip (h : a.length = k) : (a ++ b).getD (i + k) 0 = b.getD i 0 := by
  rw [List.getD_append_right _ _ _ _ (by omega), h, Nat.add_sub_cancel]

theorem rd16_field : rd16 (leEncode 2 v ++ b) 0 = v % 65536 := by
  rw [rd16, List.drop_zero, List.take_append_of_le_length (by simp), List.take_of_length_le (by simp),
    leDecode_leEncode]
  rfl

theorem rd32_field : rd32 (leEncode 4 v ++ b) 0 = v % 2 ^ 32 := by
  rw [rd32, List.drop_zero, List.take_append_of_le_length (by simp), List.take_of_length_le (by simp),
    leDecode_leEncode]
  rfl

end Fields

/-- The fields that a mount reads. -/
theorem bootSector_fields (f : F12) (label : List UInt8) (serial : Nat) :
    ∃ b, bootSector f label serial = b ∧ b.length = 512 ∧ b.getD 510 0 = 0x55 ∧ b.getD 511 0 = 0xAA ∧
      rd16 b 11 = 512 ∧ b.getD 13 0 = .ofNat f.spc ∧ rd16 b 14 = f.reserved % 65536 ∧
      b.getD 16 0 = .ofNat f.numFats ∧ rd16 b 17 = f.rootEntries % 65536 ∧
      rd16 b 22 = f.fatSectors % 65536 ∧
      totalSectors b = (f.firstData + f.clusters * f.spc) % 2 ^ 32 := by
  obtain ⟨oem, kind, blank, lenO, lenK, lenB, eq⟩ := bootSector_parts f label serial
  have two (v : Nat) : (leEncode 2 v).length = 2 := length_leEncode 2 v
  have four (v : Nat) : (leEncode 4 v).length = 4 := length_leEncode 4 v
  have one (x : UInt8) : [x].length = 1 := rfl
  have three (x y z : UInt8) : [x, y, z].length = 3 := rfl
  have zeros : ([0, 0, 0, 0] : List UInt8).length = 4 := rfl
  have name : (padTo 11 (label.take 11)).length = 11 := length_padTo (List.length_take_le _ _)
  refine ⟨_, rfl, ?_⟩
  rw [eq]
  generalize padTo 11 (label.take 11) = name_ at name
  refine ⟨?_, ?_, ?_, ?_, ?_, ?_, ?_, ?_, ?_, ?_⟩
  · simp only [List.length_append, length_leEncode, lenO, lenK, lenB, name, List.length_cons,
      List.length_nil]
  · rw [getD_skip (three _ _ _), getD_skip lenO, getD_skip (two _), getD_skip (one _),
      getD_skip (two _), getD_skip (one _), getD_skip (two _), getD_skip (two _), getD_skip (one _),
      getD_skip (two _), getD_skip (two _), getD_skip (two _), getD_skip zeros, getD_skip (four _),
      getD_skip (three _ _ _), getD_skip (four _), getD_skip name, getD_skip lenK, getD_skip lenB]
    rfl
  · rw [getD_skip (three _ _ _), getD_skip lenO, getD_skip (two _), getD_skip (one _),
      getD_skip (two _), getD_skip (one _), getD_skip (two _), getD_skip (two _), getD_skip (one _),
      getD_skip (two _), getD_skip (two _), getD_skip (two _), getD_skip zeros, getD_skip (four _),
      getD_skip (three _ _ _), getD_skip (four _), getD_skip name, getD_skip lenK, getD_skip lenB]
    rfl
  · rw [rd16_skip (three _ _ _), rd16_skip lenO, rd16_field]
  · rw [getD_skip (three _ _ _), getD_skip lenO, getD_skip (two _)]
    rfl
  · rw [rd16_skip (three _ _ _), rd16_skip lenO, rd16_skip (two _), rd16_skip (one _), rd16_field]
  · rw [getD_skip (three _ _ _), getD_skip lenO, getD_skip (two _), getD_skip (one _),
      getD_skip (two _)]
    rfl
  · rw [rd16_skip (three _ _ _), rd16_skip lenO, rd16_skip (two _), rd16_skip (one _),
      rd16_skip (two _), rd16_skip (one _), rd16_field]
  · rw [rd16_skip (three _ _ _), rd16_skip lenO, rd16_skip (two _), rd16_skip (one _),
      rd16_skip (two _), rd16_skip (one _), rd16_skip (two _), rd16_skip (two _), rd16_skip (one _),
      rd16_field]
  · -- two bytes hold the number of sectors when they can, else the four further on
    rw [totalSectors, rd16_skip (three _ _ _), rd16_skip lenO, rd16_skip (two _), rd16_skip (one _),
      rd16_skip (two _), rd16_skip (one _), rd16_skip (two _), rd16_field,
      rd32_skip (three _ _ _), rd32_skip lenO, rd32_skip (two _), rd32_skip (one _),
      rd32_skip (two _), rd32_skip (one _), rd32_skip (two _), rd32_skip (two _), rd32_skip (one _),
      rd32_skip (two _), rd32_skip (two _), rd32_skip (two _), rd32_skip zeros, rd32_field]
    by_cases short : f.firstData + f.clusters * f.spc < 0x10000
    · simp only [if_pos short]
      split
      · omega
      · omega
    · simp only [if_neg short, Nat.zero_mod, if_true]

/-- A mount takes the size of the table from sixteen bits. -/
theorem mountFrom_fatSectors {b : List UInt8} (h : mountFrom sectors b = some f) :
    f.fatSectors = rd16 b 22 := by
  unfold mountFrom at h
  dsimp only at h
  split at h
  · cases h
  split at h
  · cases h
  split at h
  · cases h
  split at h
  · cases h
  split at h
  · cases h
  split at h
  · cases h
  split at h
  · cases h
  cases h
  rfl

attribute [ext] F12

/-- A volume whose fields fit into its boot sector is mounted as it was formatted. -/
theorem mountFrom_bootSector (some_ : 1 ≤ fatSectors) (few : fatSectors < 65536)
    (clustered : clusters ≠ 0) (fits : 9 + fatSectors + min clusters 4084 ≤ sectors)
    (most : sectors < 2 ^ 32) :
    mountFrom sectors (bootSector (formatted fatSectors clusters) label serial) =
      some (formatted fatSectors clusters) := by
  obtain ⟨b, eq, -, first, second, sector, spc, reserved, numFats, entries, size, totals⟩ :=
    bootSector_fields (formatted fatSectors clusters) label serial
  rw [eq]
  have one : (b.getD 13 0).toNat = 1 := by rw [spc]; rfl
  have table : (b.getD 16 0).toNat = 1 := by rw [numFats]; rfl
  have lead : rd16 b 14 = 1 := reserved
  have slots : rd16 b 17 = 128 := entries
  have width : rd16 b 22 = fatSectors := size.trans (Nat.mod_eq_of_lt few)
  have all : totalSectors b = 9 + fatSectors + min clusters 4084 := by
    rw [totals]
    show (1 + fatSectors + 8 + min clusters 4084 * 1) % 2 ^ 32 = _
    omega
  have root : (128 * direntBytes + 511) / 512 = 8 := rfl
  have count : (9 + fatSectors + min clusters 4084 - (1 + fatSectors * 1 + 8)) / 1 =
      min clusters 4084 := by omega
  unfold mountFrom
  simp only [one, table, lead, slots, width, all, root, count]
  rw [if_neg (by simp only [first, second]; decide), if_neg (by rw [sector]; decide),
    dif_neg (by decide), if_neg (by omega), if_neg (by omega), if_neg (by omega), dif_neg (by omega)]
  refine congrArg some (F12.ext rfl rfl rfl rfl rfl rfl ?_ ?_ rfl)
  · show 1 + fatSectors * 1 = 1 + fatSectors
    omega
  · show 1 + fatSectors * 1 + 8 = 1 + fatSectors + 8
    omega

/-! ### The medium -/

/-- What a format settled on, and the first sector behind it. -/
theorem f12Format_boot (h : f12Format total d label serial = some (f, d')) : ∃ fatSectors clusters,
    settle total 8 1 0 = some (fatSectors, clusters) ∧ f = formatted fatSectors clusters ∧
      d'.read 0 = bootSector f label serial := by
  unfold f12Format at h
  cases settled : settle total 8 1 0 with
  | none =>
    rw [settled] at h
    cases h
  | some r =>
    obtain ⟨fatSectors, clusters⟩ := r
    rw [settled] at h
    dsimp only at h
    split at h
    · cases h
    simp only [Option.some.injEq, Prod.mk.injEq] at h
    obtain ⟨rfl, rfl⟩ := h
    refine ⟨fatSectors, clusters, rfl, rfl, ?_⟩
    obtain ⟨b, eq, len, -⟩ := bootSector_fields (formatted fatSectors clusters) label serial
    have first : (formatted fatSectors clusters).firstFat = 1 := rfl
    have root : (formatted fatSectors clusters).firstRoot = 1 + fatSectors := rfl
    have read : ∀ d : Disk, (∀ i (hi : i < b.length), d.bytes i = b[i]) → d.read 0 = b := by
      intro d same
      have all : window d.bytes 0 b.length = b := window_eq fun i hi => by
        rw [Nat.zero_add]
        exact same i hi
      rwa [len] at all
    rw [eq]
    refine read _ fun i hi => ?_
    rw [bytes_dirWriteSlot length_fatDirentLabel,
      store_outside (.inl (by unfold F12.slotAddr; omega)),
      fatSet_outside (.inl (by unfold F12.fatAt; omega)),
      fatSet_outside (.inl (by unfold F12.fatAt; omega)), bytes_zeroSectors, if_neg (by omega),
      bytes_zeroSectors, if_neg (by omega)]
    have stored := @store_inside d.bytes 0 b i hi
    rwa [Nat.zero_add] at stored

/-- A mount of the medium gives the volume that was formatted, its table holds the entries and its
clusters lie on the medium, for these sector counts and no others. -/
theorem f12Format_agrees (most : total < 2 ^ 32) (h : f12Format total d label serial = some (f, d')) :
    f12Mount total d' = some f ∧ f.HoldsEntries ∧ f.firstData + f.clusters * f.spc ≤ total ↔
      Agreeing total := by
  obtain ⟨fatSectors, clusters, settled, rfl, boot⟩ := f12Format_boot h
  obtain ⟨clustered, some_, fits, -, agree⟩ := settle_cases settled most
  have inside : (formatted fatSectors clusters).firstData +
      (formatted fatSectors clusters).clusters * (formatted fatSectors clusters).spc =
      9 + fatSectors + min clusters 4084 := by
    show 1 + fatSectors + 8 + min clusters 4084 * 1 = _
    omega
  rw [f12Mount, boot, inside, ← agree]
  constructor
  · rintro ⟨mounted, holds, -⟩
    refine ⟨holds, ?_⟩
    obtain ⟨b, eq, -, -, -, -, -, -, -, -, size, -⟩ :=
      bootSector_fields (formatted fatSectors clusters) label serial
    have same := mountFrom_fatSectors mounted
    rw [eq, size] at same
    change fatSectors = fatSectors % 65536 at same
    show fatSectors < 65536
    omega
  · rintro ⟨holds, few⟩
    exact ⟨mountFrom_bootSector some_ few (Nat.ne_of_gt clustered) fits most, holds, fits⟩

/-- A medium of zeros with 64 sectors. -/
theorem f12Format_agrees_small : ∃ f d, f12Format 64 ⟨fun _ => 0⟩ (ascii "RPCORTEX") 1 = some (f, d) ∧
    (f12Mount 64 d = some f ∧ f.HoldsEntries ∧ f.firstData + f.clusters * f.spc ≤ 64 ↔
      Agreeing 64) := by
  have settled : settle 64 8 1 0 = some (1, 54) := by decide
  have done : (f12Format 64 ⟨fun _ => 0⟩ (ascii "RPCORTEX") 1).isSome = true := by
    rw [f12Format, settled]
    rfl
  obtain ⟨⟨f, d⟩, formatted⟩ := Option.isSome_iff_exists.mp done
  exact ⟨f, d, formatted, f12Format_agrees (by decide) formatted⟩

/-- A table of 65536 sectors, of which the boot sector keeps zero. -/
theorem f12Mount_refuses : ¬∀ total d label serial f d', total < 2 ^ 32 →
    f12Format total d label serial = some (f, d') →
    f12Mount total d' = some f ∧ f.HoldsEntries ∧ f.firstData + f.clusters * f.spc ≤ total := by
  intro always
  have settled : settle 22434824 8 1 0 = some (65536, 22369279) := by decide
  have done : (f12Format 22434824 ⟨fun _ => 0⟩ (ascii "RPCORTEX") 1).isSome = true := by
    rw [f12Format, settled]
    rfl
  obtain ⟨⟨f, d⟩, same⟩ := Option.isSome_iff_exists.mp done
  have mounted := (always 22434824 _ _ _ f d (by decide) same).1
  obtain ⟨fatSectors, clusters, settled', rfl, boot⟩ := f12Format_boot same
  rw [settled] at settled'
  cases settled'
  obtain ⟨b, eq, -, -, -, -, -, -, -, -, size, -⟩ :=
    bootSector_fields (formatted 65536 22369279) (ascii "RPCORTEX") 1
  rw [f12Mount, boot, eq] at mounted
  have zero := mountFrom_fatSectors mounted
  rw [size] at zero
  exact absurd zero (by decide)

end RPCortex.Fat12
