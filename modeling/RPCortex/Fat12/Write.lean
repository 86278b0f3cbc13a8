import RPCortex.Fat12.Volume
import RPCortex.Fat12.Table

/-! Names on a FAT12 volume: the 8.3 form that `fatview.cpp` makes of a long name, the printed form
of a stored one, and how many directory slots a name takes.  Characters are bytes; no comparison of
the source depends on the sign of a `char`. -/

namespace RPCortex.Fat12

open Lib

abbrev space : UInt8 := 0x20

abbrev dotChar : UInt8 := 0x2E

/-- The first byte of a deleted directory entry. -/
abbrev deletedMark : UInt8 := 0xE5

/-- `FAT_CASE_BASE_LOWER`. -/
abbrev fatCaseBaseLower : UInt8 := 0x08

/-- `FAT_CASE_EXT_LOWER`. -/
abbrev fatCaseExtLower : UInt8 := 0x10

def isUpper (c : UInt8) : Bool := 0x41 ≤ c && c ≤ 0x5A

def isLower (c : UInt8) : Bool := 0x61 ≤ c && c ≤ 0x7A

def toUpper (c : UInt8) : UInt8 := if isLower c then c - 0x61 + 0x41 else c

/-! ### Short names -/

/-- `illegal_83`: control characters and the characters `"*+,./:;<=>?[\]|`. -/
def illegal83 (c : UInt8) : Bool :=
  c < 0x20 || [0x22, 0x2A, 0x2B, 0x2C, 0x2E, 0x2F, 0x3A, 0x3B, 0x3C, 0x3D, 0x3E, 0x3F, 0x5B, 0x5C,
    0x5D, 0x7C].contains c

/-- The bytes before the last dot and, when there is a dot, those behind it. -/
def splitLastDot : List UInt8 → List UInt8 × Option (List UInt8)
  | [] => ([], none)
  | c :: rest =>
    match splitLastDot rest with
    | (base, some ext) => (c :: base, some ext)
    | (base, none) => if c = dotChar then ([], some base) else (c :: base, none)

/-- `l` filled up with spaces to `n` bytes. -/
def padTo (n : Nat) (l : List UInt8) : List UInt8 := l ++ List.replicate (n - l.length) space

theorem length_padTo {n : Nat} {l : List UInt8} (h : l.length ≤ n) : (padTo n l).length = n := by
  simp [padTo]
  omega

/-- The first `n` characters of one half of a name that 8.3 allows. -/
def kept (n : Nat) (l : List UInt8) : List UInt8 := (l.filter fun c => !illegal83 c).take n

theorem length_kept_le (n : Nat) (l : List UInt8) : (kept n l).length ≤ n := List.length_take_le _ _

/-- The bit for a half of a name that holds lower-case letters and no upper-case one. -/
def caseBit (bit : UInt8) (l : List UInt8) : UInt8 := if l.any isLower && !l.any isUpper then bit else 0

/-- A first byte that would mark the entry deleted is stored as the substitute for it. -/
def substitute : List UInt8 → List UInt8
  | c :: rest => (if c = deletedMark then 0x05 else c) :: rest
  | [] => []

@[simp] theorem length_substitute (l : List UInt8) : (substitute l).length = l.length := by
  cases l <;> simp [substitute]

/-- An 8.3 name, space padded and without its dot, and its case bits. -/
structure ShortName where
  name : List UInt8
  caseFlags : UInt8
  length_name : name.length = 11

/-- `fat_shortname`. -/
def fatShortname (name : List UInt8) : Option ShortName :=
  -- a name that is empty or all extension has no 8.3 form
  if name = [] ∨ name.head? = some dotChar then none
  else
    let base := kept 8 (splitLastDot name).1
    let ext := kept 3 ((splitLastDot name).2.getD [])
    if base = [] then none
    else some {
      name := substitute (padTo 8 (base.map toUpper) ++ padTo 3 (ext.map toUpper))
      caseFlags := caseBit fatCaseBaseLower base ||| caseBit fatCaseExtLower ext
      length_name := by
        rw [length_substitute, List.length_append, length_padTo, length_padTo]
        · simpa using length_kept_le _ _
        · simpa using length_kept_le _ _ }

/-- `render_83`: the printed form of an 8.3 name. -/
def render83 (name : List UInt8) (caseFlags : UInt8) : List UInt8 :=
  let ext := (name.drop 8).take 3
  cstr (renderHalf (caseFlags &&& fatCaseBaseLower != 0) (name.take 8) ++
    if name.getD 8 0 ≠ space then dotChar :: renderHalf (caseFlags &&& fatCaseExtLower != 0) ext
    else [])

namespace ShortName

/-- The printed form. -/
def shown (s : ShortName) : List UInt8 := render83 s.name s.caseFlags

end ShortName

/-- `fat_name_fits_83`: whether the 8.3 form with its case bits is the name. -/
def fatNameFits83 (name : List UInt8) : Bool :=
  if name = [] then true
  else match fatShortname name with
    | none => false
    | some s => decide (s.shown = name)

/-- `LFN_CHARS`. -/
abbrev lfnLength : Nat := 13

/-- `fat_entries_for`, of a node whose long name is `name`. -/
def fatEntriesFor (name : List UInt8) : Nat :=
  if fatNameFits83 name then 1 else 1 + (name.length + lfnLength - 1) / lfnLength

theorem one_le_fatEntriesFor (name : List UInt8) : 1 ≤ fatEntriesFor name := by
  unfold fatEntriesFor
  split
  · exact le_rfl
  · exact Nat.le_add_right _ _

/-! ### The first byte of a short name -/

theorem toUpper_of_legal {c : UInt8} (h : illegal83 c = false) : 0x20 ≤ toUpper c := by
  revert c
  decide +kernel

/-- The first byte of a generated short name marks neither a free slot nor a deleted one. -/
theorem fatShortname_head {name : List UInt8} {s : ShortName} (h : fatShortname name = some s) :
    s.name.getD 0 0 ≠ 0 ∧ s.name.getD 0 0 ≠ deletedMark := by
  simp only [fatShortname] at h
  split at h
  · cases h
  · split at h
    · cases h
    · rename_i hbase
      obtain rfl := Option.some.inj h
      obtain ⟨c, base, hc⟩ := List.exists_cons_of_ne_nil hbase
      have legal : illegal83 c = false := by
        have : c ∈ kept 8 (splitLastDot name).1 := by simp [hc]
        simpa using (List.mem_filter.mp (List.mem_of_mem_take this)).2
      have big := toUpper_of_legal legal
      simp only [hc, List.map_cons, padTo, List.cons_append, substitute, List.getD_cons_zero]
      split
      · decide
      · refine ⟨?_, ‹_›⟩
        intro hz
        rw [hz] at big
        exact absurd big (by decide)

end RPCortex.Fat12

/-! Writing a FAT12 volume, `fat12.cpp`: formatting it, the clusters of a file, its entries in the
root directory, and removing it.  The medium is written without errors. -/

namespace RPCortex.Fat12

open Lib

/-! ### Entries -/

/-- The day of a year, from 0, as a month and a day from 1. -/
def monthOf : (lengths : List Nat) → (month days : Nat) → Nat × Nat
  | [], month, days => (month, days + 1)
  | len :: lengths, month, days =>
    if days < len then (month, days + 1) else monthOf lengths (month + 1) (days - len)

/-- The loop of `fat_time_encode` over the years. -/
def yearOf : (fuel : Nat) → (year days : Nat) → Nat × Nat
  | 0, year, days => (year, days)
  | fuel + 1, year, days =>
    let len := if isLeap year then 366 else 365
    if days < len then (year, days) else yearOf fuel (year + 1) (days - len)

/-- `fat_time_encode`: the date and the time. -/
def fatTimeEncode (epoch : Nat) : Nat × Nat :=
  if epoch < 315532800 then (33, 0)
  else
    let secs := epoch - 315532800
    let rem := secs % 86400
    -- a year has more than 300 days
    let y := yearOf (secs / 86400 / 300 + 1) 1980 (secs / 86400)
    let m := monthOf [31, if isLeap y.1 then 29 else 28, 31, 30, 31, 30, 31, 31, 30, 31, 30, 31] 1 y.2
    (min (y.1 - 1980) 127 * 512 + m.1 * 32 + m.2,
      rem / 3600 * 2048 + rem % 3600 / 60 * 32 + rem % 60 / 2)

/-- `fat_dirent`. -/
def fatDirent (name : List UInt8) (attr : UInt8) (first size mtime : Nat) (caseFlags : UInt8) :
    List UInt8 :=
  let dt := fatTimeEncode mtime
  name ++ [attr, caseFlags, 0] ++ leEncode 2 dt.2 ++ leEncode 2 dt.1 ++ leEncode 2 dt.1 ++ [0, 0] ++
    leEncode 2 dt.2 ++ leEncode 2 dt.1 ++ leEncode 2 first ++ leEncode 4 size

/-- `fat_dirent_label`. -/
def fatDirentLabel (label : List UInt8) : List UInt8 :=
  fatDirent (padTo 11 (label.take 11)) 0x08 0 0 0 0

/-- A character of a long name in its entries. -/
def lfnChar (name : List UInt8) (idx : Nat) : Nat :=
  if idx < name.length then (name.getD idx 0).toNat else if idx = name.length then 0 else 0xFFFF

/-- The checksum of a short name. -/
def lfnChecksum (name83 : List UInt8) : UInt8 :=
  name83.foldl (fun sum c => ((sum &&& 1) <<< 7) + (sum >>> 1) + c) 0

/-- Some characters of a long name. -/
def lfnChars (name : List UInt8) (idx n : Nat) : List UInt8 :=
  (List.range n).flatMap fun k => leEncode 2 (lfnChar name (idx + k))

/-- The long-name entry with the number `seq`. -/
def lfnEntry (name name83 : List UInt8) (seq : Nat) (last : Bool) : List UInt8 :=
  let base := (seq - 1) * 13
  [.ofNat seq ||| (if last then 0x40 else 0)] ++ lfnChars name base 5 ++
    [0x0F, 0, lfnChecksum name83] ++ lfnChars name (base + 5) 6 ++ [0, 0] ++
    lfnChars name (base + 11) 2

/-- `dir_write_slot`. -/
def dirWriteSlot (f : F12) (d : Disk) (slot : Nat) (entry : List UInt8) : Disk :=
  let lba := f.firstRoot + slot / 16
  let sec := d.read lba
  let at_ := slot % 16 * 32
  d.write lba (sec.take at_ ++ entry ++ sec.drop (at_ + 32))

/-- The search of `dir_scan` for a run of free slots; `run` is the run that is open, with its
length.  Behind the last entry the slots that are left wrap to more than any name needs. -/
def freeRunFrom (f : F12) (needed : Nat) :
    (slots : List (List UInt8)) → (slot : Nat) → (run : Option (Nat × Nat)) → Option Nat → Option Nat
  | [], _, _, found => found
  | e :: slots, slot, run, found =>
    if e.getD 0 0 = 0 ∨ e.getD 0 0 = 0xE5 then
      let start := (run.getD (slot, 0)).1
      let len := (run.getD (slot, 0)).2 + 1
      let found := if needed ≤ len ∧ found = none then some start else found
      if e.getD 0 0 = 0 then
        if found = none ∧ (f.rootEntries < start ∨ needed ≤ f.rootEntries - start) then some start
        else found
      else freeRunFrom f needed slots (slot + 1) (some (start, len)) found
    else freeRunFrom f needed slots (slot + 1) none found

/-- The first slot of a run of free ones that `dir_scan` reports. -/
def freeRun (f : F12) (d : Disk) (needed : Nat) : Option Nat :=
  freeRunFrom f needed (rootSlots f d) 0 none none

/-! ### Clusters -/

/-- `alloc_cluster`. -/
def allocCluster (f : F12) (d : Disk) (after : Nat) : Option (Nat × Disk) :=
  ((List.range' 2 f.clusters).find? fun c => fatGet f d c = 0).map fun c =>
    let d := fatSet f d c 0xFFF
    (c, if after ≠ 0 then fatSet f d after c else d)

/-- `free_chain`.  A cluster that was freed ends the chain, so no cluster is freed twice. -/
def freeChain (f : F12) : (fuel : Nat) → Disk → (cluster : Nat) → Disk
  | 0, d, _ => d
  | fuel + 1, d, cluster =>
    if inChain cluster then freeChain f fuel (fatSet f d cluster 0) (fatGet f d cluster) else d

/-- As many steps as there are clusters in a table. -/
def chainFuel : Nat := 4096

/-- The inner loop of `f12_write` over the sectors of a cluster, or `none` where the source gives
too little. -/
def writeCluster (f : F12) (src : Nat → Nat → List UInt8) (size c : Nat) :
    (sectors sn done : Nat) → Disk → Option Nat × Disk
  | 0, _, done, d => (some done, d)
  | sectors + 1, sn, done, d =>
    if size ≤ done then (some done, d)
    else
      let want := min 512 (size - done)
      let data := src done want
      if data.length ≠ want then (none, d)
      else writeCluster f src size c sectors (sn + 1) (done + want)
        (d.write (f.firstData + (c - 2) * f.spc + sn) (data ++ List.replicate (512 - want) 0))

/-- The outer loop of `f12_write`: the first cluster, or `none` when the file does not fit. -/
def writeData (f : F12) (src : Nat → Nat → List UInt8) (size : Nat) :
    (fuel first prev done : Nat) → Disk → Option Nat × Disk
  | 0, first, _, _, d => (some first, d)
  | fuel + 1, first, prev, done, d =>
    if size ≤ done then (some first, d)
    else match allocCluster f d prev with
    | none => (none, if first ≠ 0 then freeChain f chainFuel d first else d)
    | some (c, d) =>
      let first := if first = 0 then c else first
      match writeCluster f src size c f.spc 0 done d with
      | (none, d) => (none, freeChain f chainFuel d first)
      | (some done, d) => writeData f src size fuel first c done d

/-! ### Files -/

/-- The loop of `f12_remove` that marks the slots of an entry, from its last one on. -/
def eraseSlots (f : F12) (last : Nat) : (slots : Nat) → Disk → Disk
  | 0, d => d
  | slot + 1, d =>
    let e := slotAt f d slot
    if slot ≠ last ∧ e.getD 11 0 &&& 0x0F ≠ 0x0F then d
    else
      let d := dirWriteSlot f d slot (0xE5 :: e.drop 1)
      if slot ≠ last ∧ e.getD 0 0 &&& 0x40 ≠ 0 then d else eraseSlots f last slot d

/-- `f12_remove`. -/
def f12Remove (f : F12) (d : Disk) (name : List UInt8) : Bool × Disk :=
  match findName f d name with
  | none => (false, d)
  | some x => (true, eraseSlots f x.slot (x.slot + 1) (freeChain f chainFuel d x.entry.firstCluster))

/-- The entries of a file, from the slot `start` on. -/
def writeEntries (f : F12) (d : Disk) (start slots : Nat) (name : List UInt8) (s : ShortName)
    (entry : List UInt8) : Disk :=
  let d := (List.range (slots - 1)).foldl (fun d i =>
    dirWriteSlot f d (start + i) (lfnEntry name s.name (slots - 1 - i) (i = 0))) d
  dirWriteSlot f d (start + (slots - 1)) entry

/-- `f12_write`; `src off want` is what the callback reads. -/
def f12Write (f : F12) (d : Disk) (name : List UInt8) (size mtime : Nat)
    (src : Nat → Nat → List UInt8) : Bool × Disk :=
  if name = [] then (false, d)
  else
    let d := if (f12Find f d name).isSome then (f12Remove f d name).2 else d
    match fatShortname name with
    | none => (false, d)
    | some s =>
      match freeRun f d (fatEntriesFor name) with
      | none => (false, d)
      | some start =>
        match writeData f src size (size + 1) 0 0 0 d with
        | (none, d) => (false, d)
        | (some first, d) => (true, writeEntries f d start (fatEntriesFor name) name s
            (fatDirent s.name 0x20 first size mtime s.caseFlags))

/-- `f12_free_bytes`. -/
def f12FreeBytes (f : F12) (d : Disk) : Nat :=
  ((List.range' 2 f.clusters).filter fun c => fatGet f d c = 0).length * f.spc * 512

end RPCortex.Fat12
