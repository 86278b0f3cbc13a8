import RPCortex.Lib.Bytes

/-! Reading a FAT12 volume, `fat12.cpp`: the table of twelve-bit entries, the root directory with its
long names, and the bytes of a file along its chain of clusters.  The medium is read without
errors. -/

namespace RPCortex.Fat12

open Lib

/-- `F12` of a mounted volume, without the way to reach it.  `f12_format` and `f12_mount` refuse
volumes with more clusters; the sectors of a cluster are a byte of the boot sector. -/
structure F12 where
  reserved : Nat
  numFats : Nat
  rootEntries : Nat
  spc : Nat
  fatSectors : Nat
  firstFat : Nat
  firstRoot : Nat
  firstData : Nat
  clusters : Nat
  spc_pos : 0 < spc
  spc_lt : spc < 256
  clusters_lt : clusters < 4085

/-- The medium behind `F12Io`. -/
structure Disk where
  bytes : Nat → UInt8

/-- `F12_SECTOR`. -/
abbrev sectorBytes : Nat := 512

/-- `DIRENT`. -/
abbrev direntBytes : Nat := 32

/-- `read`. -/
def Disk.read (d : Disk) (lba : Nat) : List UInt8 := window d.bytes (lba * 512) 512

/-- `rd16`. -/
def rd16 (e : List UInt8) (i : Nat) : Nat := leDecode ((e.drop i).take 2)

/-- `rd32`. -/
def rd32 (e : List UInt8) (i : Nat) : Nat := leDecode ((e.drop i).take 4)

/-! ### The table -/

/-- `fat_byte`. -/
def fatByte (f : F12) (d : Disk) (off : Nat) : UInt8 :=
  (d.read (f.firstFat + off / 512)).getD (off % 512) 0

/-- `fat_get`. -/
def fatGet (f : F12) (d : Disk) (cluster : Nat) : Nat :=
  let off := cluster + cluster / 2
  let a := (fatByte f d off).toNat
  let b := (fatByte f d (off + 1)).toNat
  if cluster % 2 = 1 then a >>> 4 ||| b <<< 4 else a ||| (b &&& 0x0F) <<< 8

/-- A cluster that a chain goes on with. -/
def inChain (cluster : Nat) : Bool := 2 ≤ cluster && cluster < 0xFF8

/-! ### Names -/

/-- A letter in lower case. -/
def toLower (c : UInt8) : UInt8 := if 0x41 ≤ c ∧ c ≤ 0x5A then c - 0x41 + 0x61 else c

/-- `ieq`: equality of two strings that ignores the case of ASCII letters. -/
def ieq : List UInt8 → List UInt8 → Bool
  | a :: as, b :: bs => if toLower a ≠ toLower b then false else ieq as bs
  | [], [] => true
  | _, _ => false

theorem ieq_iff {a b : List UInt8} : ieq a b = true ↔ a.map toLower = b.map toLower := by
  induction a generalizing b with
  | nil => cases b <;> simp [ieq]
  | cons x a ih =>
    cases b with
    | nil => simp [ieq]
    | cons y b => by_cases h : toLower x = toLower y <;> simp [ieq, h, ih]

/-- One half of a printed short name: the characters before the first space, in lower case when
the case bit says so. -/
def renderHalf (lowered : Bool) (half : List UInt8) : List UInt8 :=
  (half.takeWhile (· ≠ 0x20)).map fun c => if lowered then toLower c else c

/-- `short_name`. -/
def shortName (e : List UInt8) : List UInt8 :=
  let caseBits := e.getD 12 0
  cstr (renderHalf (caseBits &&& 0x08 ≠ 0) (e.take 8) ++
    if e.getD 8 0 ≠ 0x20 then
      0x2E :: renderHalf (caseBits &&& 0x10 ≠ 0) ((e.drop 8).take 3)
    else [])

/-- `F12_MAXNAME`. -/
def maxName : Nat := 64

/-- The buffer of the long name that is being put together, and whether it is good so far. -/
structure LongName where
  name : List UInt8
  ok : Bool

/-- The state at a slot that no long name leads up to. -/
def noName : LongName := ⟨List.replicate maxName 0, false⟩

/-- The offsets of the characters in a long-name entry. -/
def lfnOffsets : List Nat := [1, 3, 5, 7, 9, 14, 16, 18, 20, 22, 24, 28, 30]

/-- The loop of `lfn_gather`; `idx` is the place of the next character. -/
def gatherFrom (e : List UInt8) : (offsets : List Nat) → (idx : Nat) → LongName → LongName
  | [], _, l => l
  | o :: offsets, idx, l =>
    let c := rd16 e o
    if c = 0xFFFF ∨ c = 0 then gatherFrom e offsets (idx + 1) l
    else if maxName - 1 ≤ idx then { l with ok := false }
    else if 0x7F < c then { l with ok := false }
    else gatherFrom e offsets (idx + 1) { l with name := l.name.set idx (.ofNat c) }

/-- `lfn_gather`. -/
def lfnGather (e : List UInt8) (l : LongName) : LongName :=
  let seq := (e.getD 0 0 &&& 0x1F).toNat
  if seq = 0 then { l with ok := false } else gatherFrom e lfnOffsets ((seq - 1) * 13) l

/-! ### Times -/

/-- `leap`. -/
def isLeap (y : Nat) : Bool := (y % 4 = 0 && y % 100 ≠ 0) || y % 400 = 0

/-- `cum`. -/
def daysBefore : List Nat := [0, 31, 59, 90, 120, 151, 181, 212, 243, 273, 304, 334]

/-- `fat_epoch`.  The source reads behind its table for the months 13 to 15. -/
def fatEpoch (date time : Nat) : Nat :=
  if date = 0 then 0
  else
    let year := 1980 + date / 512 % 128
    let month := date / 32 % 16
    let day := date % 32
    if month = 0 ∨ day = 0 then 0
    else
      let years := ((List.range' 1970 (year - 1970)).map fun y => if isLeap y then 366 else 365).sum
      let days := years + daysBefore.getD (month - 1) 0 +
        (if isLeap year && 2 < month then 1 else 0) + (day - 1)
      let secs := time / 2048 % 32 * 3600 + time / 32 % 64 * 60 + time % 32 * 2
      (days * 86400 + secs) % 2 ^ 32

/-! ### The root directory -/

/-- `F12Entry`. -/
structure F12Entry where
  name : List UInt8
  size : Nat
  mtime : Nat
  firstCluster : Nat
  isDir : Bool
  deriving DecidableEq

/-- An entry with the printed form of its short name and its slot. -/
structure Found where
  entry : F12Entry
  short : List UInt8
  slot : Nat
  deriving DecidableEq

/-- The entry in a slot behind the long name `l`. -/
def entryOf (e : List UInt8) (l : LongName) : F12Entry where
  name := if l.ok && l.name.getD 0 0 ≠ 0 then cstr l.name else shortName e
  size := rd32 e 28
  mtime := fatEpoch (rd16 e 24) (rd16 e 22)
  firstCluster := rd16 e 26
  isDir := e.getD 11 0 &&& 0x10 ≠ 0

/-- The loop of `dir_scan` over the slots from `slot` on: the entries in order. -/
def scanSlots : (slots : List (List UInt8)) → (slot : Nat) → LongName → List Found
  | [], _, _ => []
  | e :: slots, slot, l =>
    let attr := e.getD 11 0
    if e.getD 0 0 = 0 then []
    else if e.getD 0 0 = 0xE5 then scanSlots slots (slot + 1) noName
    else if attr &&& 0x0F = 0x0F then
      let l := if e.getD 0 0 &&& 0x40 ≠ 0 then ⟨List.replicate maxName 0, true⟩ else l
      scanSlots slots (slot + 1) (if l.ok then lfnGather e l else l)
    else if attr &&& 0x08 ≠ 0 then scanSlots slots (slot + 1) { l with ok := false }
    else ⟨entryOf e l, shortName e, slot⟩ :: scanSlots slots (slot + 1) noName

/-- A slot of the root directory; a sector holds 16. -/
def slotAt (f : F12) (d : Disk) (slot : Nat) : List UInt8 :=
  ((d.read (f.firstRoot + slot / 16)).drop (slot % 16 * 32)).take 32

/-- The sectors of the root directory. -/
def F12.rootSectors (f : F12) : Nat := (f.rootEntries * 32 + 511) / 512

/-- The slots of the root directory. -/
def rootSlots (f : F12) (d : Disk) : List (List UInt8) :=
  (List.range (f.rootSectors * 16)).map (slotAt f d)

/-- `dir_scan` without a search for free slots. -/
def dirScan (f : F12) (d : Disk) : List Found := scanSlots (rootSlots f d) 0 noName

/-- `f12_list`: the entries in the order of the callbacks. -/
def f12List (f : F12) (d : Disk) : List F12Entry := (dirScan f d).map Found.entry

/-- `dir_scan` for a name, long or short. -/
def findName (f : F12) (d : Disk) (name : List UInt8) : Option Found :=
  (dirScan f d).find? fun e => ieq e.entry.name name || ieq e.short name

/-- `f12_find`. -/
def f12Find (f : F12) (d : Disk) (name : List UInt8) : Option F12Entry :=
  (findName f d name).map Found.entry

/-! ### Files -/

/-- `F12Cursor`. -/
structure F12Cursor where
  first : Nat
  cluster : Nat
  at_ : Nat

/-- `f12_cursor_init`. -/
def f12CursorInit : F12Cursor := ⟨0, 0, 0⟩

/-- Some steps along a chain. -/
def follow (f : F12) (d : Disk) : (skip : Nat) → (cluster : Nat) → Nat
  | 0, c => c
  | skip + 1, c => if inChain c then follow f d skip (fatGet f d c) else c

/-- The loop of `f12_read`. -/
def readChain (f : F12) (d : Disk) : (fuel : Nat) → (cluster within left : Nat) → List UInt8
  | 0, _, _, _ => []
  | fuel + 1, cluster, within, left =>
    if left = 0 ∨ !inChain cluster then []
    else
      let sec := d.read (f.firstData + (cluster - 2) * f.spc + within / 512)
      let n := min (512 - within % 512) left
      (sec.drop (within % 512)).take n ++
        if f.spc * 512 ≤ within + n then readChain f d fuel (fatGet f d cluster) 0 (left - n)
        else readChain f d fuel cluster (within + n) (left - n)

/-- `f12_read`: the bytes that it reads, and the cursor. -/
def f12Read (f : F12) (d : Disk) (e : F12Entry) (cur : F12Cursor) (off len : Nat) :
    List UInt8 × F12Cursor :=
  if e.isDir ∨ e.size ≤ off then ([], cur)
  else
    let len := if e.size < (off + len) % 2 ^ 32 then e.size - off else len
    let resumes := cur.first = e.firstCluster ∧ 2 ≤ cur.cluster ∧ cur.at_ ≤ off
    let cluster := if resumes then cur.cluster else e.firstCluster
    let base := if resumes then cur.at_ else 0
    let skip := (off - base) / (f.spc * 512)
    let start := base + skip * (f.spc * 512)
    let cluster := follow f d skip cluster
    let cur := if 2 ≤ cluster then ⟨e.firstCluster, cluster, start⟩ else cur
    (readChain f d len cluster (off - start) len, cur)

end RPCortex.Fat12
