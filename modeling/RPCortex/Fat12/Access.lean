import RPCortex.Fat12.Frame

/-! Mounting a volume that a host wrote, and what the operations on it touch, `fat12.cpp`: the
sectors that they pass to the medium, the bytes that a written sector changes, and the places of the
arrays that they index.  The values along the way are those of the operations themselves. -/

namespace RPCortex.Fat12

open Lib

/-! ### Mounting -/

/-- `total`: the sectors that the boot sector states. -/
def totalSectors (b : List UInt8) : Nat := if rd16 b 19 = 0 then rd32 b 32 else rd16 b 19

/-- `f12_mount` of a medium of `sectors` sectors, from its boot sector. -/
def mountFrom (sectors : Nat) (b : List UInt8) : Option F12 :=
  if b.getD 510 0 ≠ 0x55 ∨ b.getD 511 0 ≠ 0xAA then none
  else if rd16 b 11 ≠ sectorBytes then none
  else
    let reserved := rd16 b 14
    let numFats := (b.getD 16 0).toNat
    let rootEntries := rd16 b 17
    let fatSectors := rd16 b 22
    if h : (b.getD 13 0).toNat = 0 then none
    else if reserved = 0 ∨ numFats = 0 ∨ fatSectors = 0 then none
    else
      let total := totalSectors b
      if total = 0 ∨ sectors < total then none
      else
        let firstRoot := reserved + fatSectors * numFats
        let firstData := firstRoot + (rootEntries * direntBytes + 511) / 512
        if total ≤ firstData then none
        else
          let clusters := (total - firstData) / (b.getD 13 0).toNat
          if few : clusters = 0 ∨ 4085 ≤ clusters then none
          else some
            { reserved, numFats, rootEntries, fatSectors, firstRoot, firstData, clusters
              spc := (b.getD 13 0).toNat
              firstFat := reserved
              spc_pos := Nat.pos_of_ne_zero h
              spc_lt := (b.getD 13 0).toNat_lt
              clusters_lt := Nat.lt_of_not_le (not_or.mp few).2 }

/-- `f12_mount`. -/
def f12Mount (sectors : Nat) (d : Disk) : Option F12 := mountFrom sectors (d.read 0)

/-- What a mounted volume is known to be. -/
structure F12.On (f : F12) (sectors : Nat) : Prop where
  root : f.firstFat ≤ f.firstRoot
  data : f.firstData = f.firstRoot + f.rootSectors
  inside : f.firstData + f.clusters * f.spc ≤ sectors

theorem mountFrom_on {sectors : Nat} {b : List UInt8} {f : F12} (h : mountFrom sectors b = some f) :
    f.On sectors := by
  unfold mountFrom at h
  dsimp only at h
  split at h
  · cases h
  split at h
  · cases h
  split at h
  · cases h
  split at h
  · cases h
  split at h
  · cases h
  rename_i fits
  split at h
  · cases h
  rename_i more
  split at h
  · cases h
  cases h
  refine ⟨Nat.le_add_right _ _, rfl, ?_⟩
  have clusters := Nat.div_mul_le_self (totalSectors b - (rd16 b 14 + rd16 b 22 * (b.getD 16 0).toNat +
    (rd16 b 17 * direntBytes + 511) / 512)) (b.getD 13 0).toNat
  dsimp only
  omega

/-! ### What is touched -/

/-- A region of the volume. -/
inductive Region
  | table
  | root
  | data
  deriving DecidableEq

/-- A sector that is read, a sector that is written with the bytes `[first, last)` of the medium
changed, or place `i` of an array of `len`. -/
inductive Access
  | read (lba : Nat)
  | write (r : Region) (lba first last : Nat)
  | index (len i : Nat)
  deriving DecidableEq

/-- The bytes of a region, up to the last one. -/
def F12.bounds (f : F12) : Region → Nat × Nat
  | .table => (f.firstFat * 512, f.firstRoot * 512)
  | .root => (f.firstRoot * 512, f.firstData * 512)
  | .data => (f.firstData * 512, (f.firstData + f.clusters * f.spc) * 512)

/-- The access is in bounds, on a medium of `sectors` sectors. -/
def Access.Safe (f : F12) (sectors : Nat) : Access → Prop
  | .read lba => lba < sectors
  | .write r lba first last => lba < sectors ∧ (f.bounds r).1 ≤ first ∧ last ≤ (f.bounds r).2
  | .index len i => i < len

/-- `fat_byte`. -/
def fatByteIo (f : F12) (off : Nat) : List Access :=
  [.read (f.firstFat + off / 512), .index 512 (off % 512)]

/-- `fat_byte_set`. -/
def fatByteSetIo (f : F12) (off : Nat) : List Access :=
  fatByteIo f off ++ [.write .table (f.firstFat + off / 512) (f.fatAt off) (f.fatAt off + 1)]

/-- `fat_get`. -/
def fatGetIo (f : F12) (c : Nat) : List Access :=
  fatByteIo f (c + c / 2) ++ fatByteIo f (c + c / 2 + 1)

/-- `fat_set`. -/
def fatSetIo (f : F12) (c : Nat) : List Access :=
  fatByteSetIo f (c + c / 2) ++ fatByteSetIo f (c + c / 2 + 1)

/-- `dir_write_slot`. -/
def dirWriteSlotIo (f : F12) (slot : Nat) : List Access :=
  [.read (f.firstRoot + slot / 16), .index 512 (slot % 16 * 32 + 31),
    .write .root (f.firstRoot + slot / 16) (f.slotAddr slot) (f.slotAddr slot + 32)]

/-- `fat_epoch`: the place in the table of the months. -/
def fatEpochIo (date : Nat) : List Access :=
  if date = 0 then []
  else if date / 32 % 16 = 0 ∨ date % 32 = 0 then []
  else [.index 12 (date / 32 % 16 - 1)]

/-- `lfn_gather`: the places in the name that characters go to. -/
def lfnGatherIo (e : List UInt8) : (offsets : List Nat) → (idx : Nat) → List Access
  | [], _ => []
  | o :: offsets, idx =>
    let c := rd16 e o
    if c = 0xFFFF ∨ c = 0 then lfnGatherIo e offsets (idx + 1)
    else if maxName - 1 ≤ idx ∨ 0x7F < c then []
    else .index maxName idx :: lfnGatherIo e offsets (idx + 1)

/-- `dir_scan` from `slot` on, up to an entry that it stops at. -/
def scanIo (f : F12) (stop : Found → Bool) :
    (slots : List (List UInt8)) → (slot : Nat) → LongName → List Access
  | [], _, _ => []
  | e :: slots, slot, l =>
    let attr := e.getD 11 0
    (if slot % 16 = 0 then [.read (f.firstRoot + slot / 16)] else []) ++
      .index 512 (slot % 16 * 32 + 31) ::
    if e.getD 0 0 = 0 then []
    else if e.getD 0 0 = 0xE5 then scanIo f stop slots (slot + 1) noName
    else if attr &&& 0x0F = 0x0F then
      let l := if e.getD 0 0 &&& 0x40 ≠ 0 then ⟨List.replicate maxName 0, true⟩ else l
      let seq := (e.getD 0 0 &&& 0x1F).toNat
      (if l.ok ∧ seq ≠ 0 then lfnGatherIo e lfnOffsets ((seq - 1) * 13) else []) ++
        scanIo f stop slots (slot + 1) (if l.ok then lfnGather e l else l)
    else if attr &&& 0x08 ≠ 0 then scanIo f stop slots (slot + 1) { l with ok := false }
    else
      let x : Found := ⟨entryOf e l, shortName e, slot⟩
      .index 13 x.short.length :: fatEpochIo (rd16 e 24) ++
        if stop x then [] else scanIo f stop slots (slot + 1) noName

/-- `f12_list`, and `dir_scan` for free slots. -/
def f12ListIo (f : F12) (d : Disk) : List Access := scanIo f (fun _ => false) (rootSlots f d) 0 noName

/-- `f12_find`. -/
def f12FindIo (f : F12) (d : Disk) (name : List UInt8) : List Access :=
  scanIo f (fun e => ieq e.entry.name name || ieq e.short name) (rootSlots f d) 0 noName

/-- Some steps along a chain. -/
def followIo (f : F12) (d : Disk) : (skip : Nat) → (cluster : Nat) → List Access
  | 0, _ => []
  | skip + 1, c => if inChain c then fatGetIo f c ++ followIo f d skip (fatGet f d c) else []

/-- The loop of `f12_read`, into a buffer of `len`. -/
def readChainIo (f : F12) (d : Disk) (len : Nat) :
    (fuel : Nat) → (cluster within left : Nat) → List Access
  | 0, _, _, _ => []
  | fuel + 1, cluster, within, left =>
    if left = 0 ∨ !inChain cluster then []
    else
      let n := min (512 - within % 512) left
      [.read (f.firstData + (cluster - 2) * f.spc + within / 512), .index 512 (within % 512 + n - 1),
        .index len (len - left + n - 1)] ++
        if f.spc * 512 ≤ within + n then
          fatGetIo f cluster ++ readChainIo f d len fuel (fatGet f d cluster) 0 (left - n)
        else readChainIo f d len fuel cluster (within + n) (left - n)

/-- `f12_read`. -/
def f12ReadIo (f : F12) (d : Disk) (e : F12Entry) (cur : F12Cursor) (off len : Nat) : List Access :=
  if e.isDir ∨ e.size ≤ off then []
  else
    let len := if e.size < (off + len) % 2 ^ 32 then e.size - off else len
    let resumes := cur.first = e.firstCluster ∧ 2 ≤ cur.cluster ∧ cur.at_ ≤ off
    let cluster := if resumes then cur.cluster else e.firstCluster
    let base := if resumes then cur.at_ else 0
    let skip := (off - base) / (f.spc * 512)
    let start := base + skip * (f.spc * 512)
    followIo f d skip cluster ++ readChainIo f d len len (follow f d skip cluster) (off - start) len

/-- `alloc_cluster`. -/
def allocClusterIo (f : F12) (d : Disk) (after : Nat) : List Access :=
  let all := List.range' 2 f.clusters
  (all.takeWhile fun c => fatGet f d c ≠ 0).flatMap (fatGetIo f) ++
    match all.find? fun c => fatGet f d c = 0 with
    | none => []
    | some c => fatGetIo f c ++ fatSetIo f c ++ if after ≠ 0 then fatSetIo f after else []

/-- `free_chain`. -/
def freeChainIo (f : F12) : (fuel : Nat) → Disk → (cluster : Nat) → List Access
  | 0, _, _ => []
  | fuel + 1, d, c =>
    if inChain c then
      fatGetIo f c ++ fatSetIo f c ++ freeChainIo f fuel (fatSet f d c 0) (fatGet f d c)
    else []

/-- The inner loop of `f12_write`. -/
def writeClusterIo (f : F12) (src : Nat → Nat → List UInt8) (size c : Nat) :
    (sectors sn done : Nat) → List Access
  | 0, _, _ => []
  | sectors + 1, sn, done =>
    if size ≤ done then []
    else
      let want := min 512 (size - done)
      .index 512 (want - 1) ::
        if (src done want).length ≠ want then []
        else
          let lba := f.firstData + (c - 2) * f.spc + sn
          .write .data lba (lba * 512) (lba * 512 + 512) ::
            writeClusterIo f src size c sectors (sn + 1) (done + want)

/-- The outer loop of `f12_write`. -/
def writeDataIo (f : F12) (src : Nat → Nat → List UInt8) (size : Nat) :
    (fuel first prev done : Nat) → Disk → List Access
  | 0, _, _, _, _ => []
  | fuel + 1, first, prev, done, d =>
    if size ≤ done then []
    else allocClusterIo f d prev ++ match allocCluster f d prev with
    | none => if first ≠ 0 then freeChainIo f chainFuel d first else []
    | some (c, d) =>
      let first := if first = 0 then c else first
      writeClusterIo f src size c f.spc 0 done ++ match writeCluster f src size c f.spc 0 done d with
      | (none, d) => freeChainIo f chainFuel d first
      | (some done, d) => writeDataIo f src size fuel first c done d

/-- The loop of `f12_remove` over the slots of an entry. -/
def eraseSlotsIo (f : F12) (last : Nat) : (slots : Nat) → Disk → List Access
  | 0, _ => []
  | slot + 1, d =>
    let e := slotAt f d slot
    .read (f.firstRoot + slot / 16) :: .index 512 (slot % 16 * 32 + 31) ::
    if slot ≠ last ∧ e.getD 11 0 &&& 0x0F ≠ 0x0F then []
    else dirWriteSlotIo f slot ++
      if slot ≠ last ∧ e.getD 0 0 &&& 0x40 ≠ 0 then []
      else eraseSlotsIo f last slot (dirWriteSlot f d slot (0xE5 :: e.drop 1))

/-- `f12_remove`. -/
def f12RemoveIo (f : F12) (d : Disk) (name : List UInt8) : List Access :=
  f12FindIo f d name ++ match findName f d name with
  | none => []
  | some x => freeChainIo f chainFuel d x.entry.firstCluster ++
      eraseSlotsIo f x.slot (x.slot + 1) (freeChain f chainFuel d x.entry.firstCluster)

/-- `f12_write`. -/
def f12WriteIo (f : F12) (d : Disk) (name : List UInt8) (size : Nat)
    (src : Nat → Nat → List UInt8) : List Access :=
  if name = [] then []
  else
    let replaces := (f12Find f d name).isSome
    let d' := if replaces then (f12Remove f d name).2 else d
    f12FindIo f d name ++ (if replaces then f12RemoveIo f d name else []) ++
      if (fatShortname name).isNone then []
      else f12ListIo f d' ++ match freeRun f d' (fatEntriesFor name) with
      | none => []
      | some start => writeDataIo f src size (size + 1) 0 0 0 d' ++
          if (writeData f src size (size + 1) 0 0 0 d').1.isNone then []
          else (List.range (fatEntriesFor name)).flatMap fun i => dirWriteSlotIo f (start + i)

/-- `f12_free_bytes`. -/
def f12FreeBytesIo (f : F12) : List Access := (List.range' 2 f.clusters).flatMap (fatGetIo f)

/-! ### Runs -/

/-- A call on a mounted volume. -/
inductive Call
  | list
  | find (name : List UInt8)
  | read (e : F12Entry) (cur : F12Cursor) (off len : Nat)
  | write (name : List UInt8) (size mtime : Nat) (src : Nat → Nat → List UInt8)
  | remove (name : List UInt8)
  | freeBytes

/-- The volume, and what was touched so far. -/
structure Use where
  disk : Disk
  log : List Access

/-- What a call touches. -/
def Call.io (f : F12) (d : Disk) : Call → List Access
  | .list => f12ListIo f d
  | .find name => f12FindIo f d name
  | .read e cur off len => f12ReadIo f d e cur off len
  | .write name size _ src => f12WriteIo f d name size src
  | .remove name => f12RemoveIo f d name
  | .freeBytes => f12FreeBytesIo f

/-- The volume after a call. -/
def Call.run (f : F12) (d : Disk) : Call → Disk
  | .write name size mtime src => (f12Write f d name size mtime src).2
  | .remove name => (f12Remove f d name).2
  | _ => d

/-- A call. -/
def use (f : F12) (u : Use) (call : Call) : Option Use :=
  some ⟨call.run f u.disk, u.log ++ call.io f u.disk⟩

end RPCortex.Fat12
