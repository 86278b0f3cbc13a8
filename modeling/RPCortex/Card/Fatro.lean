import RPCortex.Lib.Wp
import RPCortex.Fat12.Volume
import RPCortex.Lib.Text

/-! The reader of memory cards, `fatro.cpp`.  A sector is asked for and may not come; what comes is the
card's, so the operations are programs that go on with any answer.  Numbers are those of `uint32_t`. -/

namespace RPCortex.Card

open Lib Fat12

/-- `FATRO_SECTOR` bytes. -/
abbrev Sector : Type := {b : List UInt8 // b.length = 512}

/-- `FATRO_FAT12`, `FATRO_FAT16` and `FATRO_FAT32`. -/
inductive Kind
  | fat12 | fat16 | fat32
  deriving DecidableEq

/-- The sectors of a fixed root directory. -/
def rootSectorsOf (rootEntries : Nat) : Nat := (rootEntries * 32 + 511) / 512

/-- `FatRo` of a mounted volume, without the way to reach the card, the cached sector and the scratch
sector. -/
structure FatRo where
  partLba : Nat
  kind : Kind
  spc : Nat
  numFats : Nat
  rootEntries : Nat
  fatSectors : Nat
  firstFat : Nat
  firstRoot : Nat
  firstData : Nat
  clusters : Nat
  rootCluster : Nat
  fsinfoLba : Nat
  label : List UInt8
  spc_pos : 0 < spc
  clusters_pos : 0 < clusters
  firstData_eq : firstData = (firstRoot + rootSectorsOf rootEntries) % 2 ^ 32
  rootEntries_lt : rootEntries < 2 ^ 16
  label_fits : label.length < 12

/-- A sector that is asked for, while a volume is mounted or none is. -/
structure Request where
  volume : Option FatRo
  lba : Nat

/-- What asks the card. -/
abbrev Reads (α : Type) : Type := Prog Request (Option Sector) α

/-- `io.read`. -/
def read (volume : Option FatRo) (lba : Nat) : Reads (Option Sector) := Prog.call ⟨volume, lba % 2 ^ 32⟩

/-! ### The table -/

/-- `cache_lba` and `cache`. -/
structure Cache where
  lba : Nat
  sector : Sector

/-- The cache after `memset`. -/
def Cache.empty : Cache := ⟨0xFFFFFFFF, List.replicate 512 0, List.length_replicate⟩

/-- `fat_byte`. -/
def fatByte (f : FatRo) (k : Cache) (off : Nat) : Reads (Option UInt8 × Cache) :=
  let lba := (f.firstFat + off / 512) % 2 ^ 32
  if lba ≠ k.lba then
    read (some f) lba >>= fun answer =>
      match answer with
      | none => pure (none, { k with lba := 0xFFFFFFFF })
      | some b => pure (some (b.1.getD (off % 512) 0), ⟨lba, b⟩)
  else pure (some (k.sector.1.getD (off % 512) 0), k)

/-- The calls of `fat_byte` for the bytes of an entry. -/
def fatBytes (f : FatRo) : (n : Nat) → Cache → (off : Nat) → Reads (Option (List UInt8) × Cache)
  | 0, k, _ => pure (some [], k)
  | n + 1, k, off =>
    fatByte f k off >>= fun r =>
      match r.1 with
      | none => pure (none, r.2)
      | some b => fatBytes f n r.2 (off + 1) >>= fun rest => pure (rest.1.map (b :: ·), rest.2)

/-- The bytes of an entry, and where its first one is. -/
def entryAt (kind : Kind) (cluster : Nat) : Nat × Nat :=
  match kind with
  | .fat12 => (2, (cluster + cluster / 2) % 2 ^ 32)
  | .fat16 => (2, cluster * 2 % 2 ^ 32)
  | .fat32 => (4, cluster * 4 % 2 ^ 32)

/-- The next cluster that an entry names, or 0 at the end of a chain. -/
def nextOf (kind : Kind) (cluster : Nat) (entry : List UInt8) : Nat :=
  match kind with
  | .fat12 =>
    let v := if cluster % 2 = 1 then leDecode entry / 16 else leDecode entry % 2 ^ 12
    if 0x0FF8 ≤ v then 0 else v
  | .fat16 => if 0xFFF8 ≤ leDecode entry then 0 else leDecode entry
  | .fat32 =>
    let v := leDecode entry % 2 ^ 28
    if 0x0FFFFFF8 ≤ v then 0 else v

/-- Whether a number is none of a cluster of the volume. -/
def FatRo.beyond (f : FatRo) (cluster : Nat) : Bool := cluster < 2 || (f.clusters + 1) % 2 ^ 32 < cluster

/-- `fat_next`. -/
def fatNext (f : FatRo) (k : Cache) (cluster : Nat) : Reads (Nat × Cache) :=
  if f.beyond cluster then pure (0, k)
  else
    fatBytes f (entryAt f.kind cluster).1 k (entryAt f.kind cluster).2 >>= fun r =>
      pure ((r.1.map (nextOf f.kind cluster)).getD 0, r.2)

/-- `cluster_lba`. -/
def clusterLba (f : FatRo) (cluster : Nat) : Nat := (f.firstData + (cluster - 2) * f.spc) % 2 ^ 32

/-! ### Directories -/

/-- `short_name`; a first byte 0x05 stands for 0xE5. -/
def shortName (e : List UInt8) : List UInt8 :=
  Fat12.shortName (if e.getD 0 0 = 0x05 then 0xE5 :: e.drop 1 else e)

/-- `fat_epoch`. -/
def fatEpoch (date time : Nat) : Nat := if 12 < date / 32 % 16 then 0 else Fat12.fatEpoch date time

theorem shortName_fits (e : List UInt8) : (shortName e).length < maxName := by
  have half (b : Bool) (l : List UInt8) : (renderHalf b l).length ≤ l.length := by
    rw [renderHalf, List.length_map]
    exact (List.takeWhile_sublist _).length_le
  have whole (e : List UInt8) : (Fat12.shortName e).length ≤ 12 := by
    have base := half (e.getD 12 0 &&& 0x08 ≠ 0) (e.take 8)
    have ext := half (e.getD 12 0 &&& 0x10 ≠ 0) ((e.drop 8).take 3)
    rw [List.length_take] at base ext
    refine Nat.le_trans (List.takeWhile_sublist _).length_le ?_
    split
    · rw [List.length_append, List.length_cons]
      omega
    · rw [List.length_append, List.length_nil]
      omega
  exact Nat.lt_of_le_of_lt (whole _) (by decide)

/-- `FatRoEntry`. -/
structure FatRoEntry where
  name : List UInt8
  size : Nat
  mtime : Nat
  firstCluster : Nat
  isDir : Bool
  name_fits : name.length < maxName
  size_lt : size < 2 ^ 32

theorem rd32_lt (e : List UInt8) (i : Nat) : rd32 e i < 2 ^ 32 := by
  have short : ((e.drop i).take 4).length ≤ 4 := by simp
  have big : 256 ^ ((e.drop i).take 4).length ≤ 256 ^ 4 := Nat.pow_le_pow_right (by omega) short
  exact Nat.lt_of_lt_of_le (leDecode_lt _) big

theorem rd16_lt (e : List UInt8) (i : Nat) : rd16 e i < 2 ^ 16 := by
  have short : ((e.drop i).take 2).length ≤ 2 := by simp
  have big : 256 ^ ((e.drop i).take 2).length ≤ 256 ^ 2 := Nat.pow_le_pow_right (by omega) short
  exact Nat.lt_of_lt_of_le (leDecode_lt _) big

/-- `fill_entry`. -/
def fillEntry (e lname : List UInt8) : FatRoEntry where
  name := if lname ≠ [] then lname.take (maxName - 1) else shortName e
  size := if e.getD 11 0 &&& 0x10 ≠ 0 then 0 else rd32 e 28
  mtime := fatEpoch (rd16 e 24) (rd16 e 22)
  firstCluster := rd16 e 20 * 2 ^ 16 + rd16 e 26
  isDir := e.getD 11 0 &&& 0x10 ≠ 0
  name_fits := by
    split
    · exact Nat.lt_of_le_of_lt (List.length_take_le _ _) (by decide)
    · exact shortName_fits e
  size_lt := by
    split
    · omega
    · exact rd32_lt e 28

/-- `listable`. -/
def listable (e name : List UInt8) : Bool :=
  e.getD 11 0 &&& 0x08 = 0 && name ≠ [0x2E] && name ≠ [0x2E, 0x2E]

/-- `RawFn`: the context after an entry, and whether to go on. -/
abbrev RawFn (σ : Type) : Type := σ → (ent lname : List UInt8) → σ × Bool

/-- Where the walk of a directory is: the long name, the context, and whether it is over. -/
structure Walk (σ : Type) where
  long : LongName
  ctx : σ
  ended : Bool

variable {σ : Type} (fn : RawFn σ)

/-- The loop of `dir_raw` over the entries of a sector, which begin at `offsets`. -/
def walkEntries (b : List UInt8) : (offsets : List Nat) → LongName → σ → Walk σ
  | [], l, s => ⟨l, s, false⟩
  | at_ :: offsets, l, s =>
    let e := (b.drop at_).take 32
    if e.getD 0 0 = 0 then ⟨l, s, true⟩
    else if e.getD 0 0 = 0xE5 then walkEntries b offsets noName s
    else if e.getD 11 0 &&& 0x0F = 0x0F then
      walkEntries b offsets (lfnGather e (if l.ok then l else { noName with ok := true })) s
    else
      let r := fn s e (if l.ok then cstr l.name else [])
      if r.2 then walkEntries b offsets noName r.1 else ⟨noName, r.1, true⟩

/-- The sectors of a fixed root, or those of a cluster, from `lba` on.  A sector that does not come ends
the walk: then there is none. -/
def walkSectors (f : FatRo) : (left lba : Nat) → LongName → σ → Reads (Option (Walk σ))
  | 0, _, l, s => pure (some ⟨l, s, false⟩)
  | left + 1, lba, l, s =>
    read (some f) lba >>= fun answer =>
      match answer with
      | none => pure none
      | some b =>
        let w := walkEntries fn b.1 ((List.range 16).map (· * 32)) l s
        if w.ended then pure (some w) else walkSectors f left (lba + 1) w.long w.ctx

/-- The loop of `dir_raw` along a chain: the context at the end unless a sector did not come. -/
def walkChain (f : FatRo) : (budget cluster : Nat) → LongName → σ → Cache → Reads (Option σ × Cache)
  | budget, cluster, l, s, k =>
    if f.beyond cluster then pure (some s, k)
    else
      walkSectors fn f f.spc (clusterLba f cluster) l s >>= fun answer =>
        match answer with
        | none => pure (none, k)
        | some w =>
          if w.ended then pure (some w.ctx, k)
          else
            match budget with
            | 0 => pure (some w.ctx, k)
            | budget + 1 =>
              fatNext f k cluster >>= fun next => walkChain f budget next.1 w.long w.ctx next.2

/-- `dir_raw`. -/
def dirRaw (f : FatRo) (k : Cache) (start : Nat) (fixedRoot : Bool) (s : σ) : Reads (Option σ × Cache) :=
  if fixedRoot then
    walkSectors fn f (rootSectorsOf f.rootEntries) f.firstRoot noName s >>= fun answer =>
      pure (answer.map Walk.ctx, k)
  else walkChain fn f ((f.clusters + 2) % 2 ^ 32) start noName s k

/-! ### Mounting -/

/-- `looks_like_bpb`. -/
def looksLikeBpb (b : List UInt8) : Bool :=
  let spc := b.getD 13 0
  b.getD 510 0 = 0x55 && b.getD 511 0 = 0xAA && rd16 b 11 = 512 && spc ≠ 0 && spc &&& (spc - 1) = 0 &&
    spc ≤ 128 && rd16 b 14 ≠ 0 && 1 ≤ b.getD 16 0 && b.getD 16 0 ≤ 2

/-- `is_exfat`. -/
def isExfat (b : List UInt8) : Bool := (b.drop 3).take 8 = ascii "EXFAT   "

/-- A label of eleven bytes without the spaces and NULs behind it. -/
def trimLabel (p : List UInt8) : List UInt8 :=
  ((p.take 11).reverse.dropWhile fun c => c = 0x20 || c = 0).reverse

theorem trimLabel_fits (p : List UInt8) : (trimLabel p).length < 12 := by
  have kept := (List.dropWhile_sublist (fun c : UInt8 => c = 0x20 || c = 0) (l := (p.take 11).reverse)).length_le
  rw [List.length_reverse, List.length_take] at kept
  rw [trimLabel, List.length_reverse]
  omega

/-- `read_label_field`. -/
def readLabelField (kind : Kind) (b : List UInt8) : List UInt8 :=
  let label := trimLabel (b.drop (if kind = .fat32 then 71 else 43))
  if ieq (cstr label) (ascii "NO NAME") then [] else label

theorem readLabelField_fits (kind : Kind) (b : List UInt8) : (readLabelField kind b).length < 12 := by
  have fits {l : List UInt8} (h : l.length < 12) :
      (if ieq (cstr l) (ascii "NO NAME") then [] else l).length < 12 := by
    split
    · exact Nat.succ_pos 11
    · exact h
  exact fits (trimLabel_fits _)

/-- `mount_at` up to the label in the root directory: the volume that the boot sector `b` describes. -/
def geometry (base : Nat) (b : List UInt8) : Option FatRo :=
  let spc := (b.getD 13 0).toNat
  let rootEntries := rd16 b 17
  let total := if rd16 b 19 = 0 then rd32 b 32 else rd16 b 19
  let fatSectors := if rd16 b 22 = 0 then rd32 b 36 else rd16 b 22
  let firstFat := (base + rd16 b 14) % 2 ^ 32
  let firstRoot := (firstFat + fatSectors * (b.getD 16 0).toNat) % 2 ^ 32
  let firstData := (firstRoot + rootSectorsOf rootEntries) % 2 ^ 32
  let clusters := (total - (firstData - base)) / spc
  let kind := if clusters < 4085 then Kind.fat12 else if clusters < 65525 then .fat16 else .fat32
  let rootCluster := if kind = .fat32 then rd32 b 44 % 2 ^ 28 else 0
  if isExfat b || !looksLikeBpb b || total = 0 || fatSectors = 0 || firstData ≤ base ||
      total ≤ firstData - base then none
  else if h : 0 < spc ∧ 0 < clusters then
    if kind = .fat32 ∧ (rootEntries ≠ 0 ∨ rootCluster < 2 ∨ (clusters + 1) % 2 ^ 32 < rootCluster) ∨
        kind ≠ .fat32 ∧ rootEntries = 0 then none
    else some {
      partLba := base
      kind
      spc
      numFats := (b.getD 16 0).toNat
      rootEntries
      fatSectors
      firstFat
      firstRoot
      firstData
      clusters
      rootCluster
      fsinfoLba := if kind = .fat32 ∧ rd16 b 48 ≠ 0 then (base + rd16 b 48) % 2 ^ 32 else 0
      label := readLabelField kind b
      spc_pos := h.1
      clusters_pos := h.2
      firstData_eq := rfl
      rootEntries_lt := rd16_lt b 17
      label_fits := readLabelField_fits kind b }
  else none

/-- `label_cb`. -/
def labelCb : RawFn (Option {l : List UInt8 // l.length < 12}) := fun s e _ =>
  if e.getD 11 0 &&& 0x08 = 0 then (s, true) else (some ⟨trimLabel e, trimLabel_fits e⟩, false)

/-- `find_root_label`: the volume with the label in its root directory. -/
def findRootLabel (f : FatRo) : Reads (FatRo × Cache) :=
  dirRaw labelCb f .empty f.rootCluster (f.kind ≠ .fat32) none >>= fun r =>
    match r.1 with
    | some (some label) => pure ({ f with label := label.1, label_fits := label.2 }, r.2)
    | _ => pure (f, r.2)

/-- `mount_at`. -/
def mountAt (base : Nat) : Reads (Option (FatRo × Cache)) :=
  read none base >>= fun answer =>
    match answer.bind fun b => geometry base b.1 with
    | none => pure none
    | some f => findRootLabel f >>= fun r => pure (some r)

/-- The start sectors of a partition table. -/
def starts (b : List UInt8) : List Nat :=
  (List.range 4).map fun i =>
    let p := b.drop (0x1BE + i * 16)
    if p.getD 4 0 = 0 ∨ p.getD 4 0 = 0xEE ∨ rd32 p 12 = 0 then 0 else rd32 p 8

/-- The loop of `fatro_mount` over the partitions. -/
def mountFirst : List Nat → Reads (Option (FatRo × Cache))
  | [] => pure none
  | start :: rest =>
    if start = 0 then mountFirst rest
    else
      mountAt start >>= fun r =>
        match r with
        | some v => pure (some v)
        | none => mountFirst rest

/-- `fatro_mount`. -/
def fatroMount : Reads (Option (FatRo × Cache)) :=
  read none 0 >>= fun answer =>
    match answer with
    | none => pure none
    | some b =>
      if isExfat b.1 then pure none
      else if looksLikeBpb b.1 then mountAt 0
      else if b.1.getD 510 0 ≠ 0x55 ∨ b.1.getD 511 0 ≠ 0xAA then pure none
      else mountFirst (starts b.1)

/-! ### Paths -/

/-- `root_entry`. -/
def rootEntry (f : FatRo) : FatRoEntry :=
  ⟨[], 0, 0, if f.kind = .fat32 then f.rootCluster else 0, true, by decide, by omega⟩

/-- `ieq_comp`. -/
def ieqComp (name comp : List UInt8) : Bool := ieq (cstr name) comp

/-- `find_cb`. -/
def findCb (comp : List UInt8) : RawFn (Option FatRoEntry) := fun s e lname =>
  let name := if lname ≠ [] then lname else shortName e
  if !listable e name || !ieqComp name comp && !ieqComp (shortName e) comp then (s, true)
  else (some (fillEntry e lname), false)

/-- `dir_raw` of a directory that has an entry. -/
def dirOf (f : FatRo) (k : Cache) (dir : FatRoEntry) (s : σ) : Reads (Option σ × Cache) :=
  dirRaw fn f k dir.firstCluster (f.kind ≠ .fat32 && dir.firstCluster = 0) s

/-- The loop of `resolve`, from an entry on. -/
def resolveFrom (f : FatRo) : (comps : List (List UInt8)) → FatRoEntry → Cache →
    Reads (Option FatRoEntry × Cache)
  | [], out, k => pure (some out, k)
  | comp :: comps, out, k =>
    if !out.isDir then pure (none, k)
    else
      dirOf (findCb comp) f k out none >>= fun r =>
        match r.1 with
        | some (some e) => resolveFrom f comps e r.2
        | _ => pure (none, r.2)

/-- The components of a path. -/
def components (path : List UInt8) : List (List UInt8) := (path.splitOn 0x2F).filter (· ≠ [])

/-- `resolve` on a mounted volume, and `fatro_stat`. -/
def resolve (f : FatRo) (k : Cache) (path : List UInt8) : Reads (Option FatRoEntry × Cache) :=
  resolveFrom f (components path) (rootEntry f) k

/-- `list_cb`: the entries that were visited. -/
def listCb : RawFn (List FatRoEntry) := fun s e lname =>
  let ent := fillEntry e lname
  (if listable e ent.name then s ++ [ent] else s, true)

/-- `fatro_list`: the entries in order, unless it fails. -/
def fatroList (f : FatRo) (k : Cache) (path : List UInt8) : Reads (Option (List FatRoEntry) × Cache) :=
  resolve f k path >>= fun r =>
    match r.1 with
    | none => pure (none, r.2)
    | some dir => if !dir.isDir then pure (none, r.2) else dirOf listCb f r.2 dir []

/-! ### Files -/

/-- `FatRoCursor`. -/
structure FatRoCursor where
  first : Nat
  cluster : Nat
  at_ : Nat

/-- What a read leaves: how many bytes it counts, the buffer, and the cached sector. -/
structure Copied where
  done : Nat
  buf : Nat → UInt8
  cursor : Option FatRoCursor
  cache : Cache

/-- The bytes of a cluster. -/
def FatRo.csize (f : FatRo) : Nat := f.spc * 512

/-- The loop of `fatro_read` to the cluster of `off`: the cluster and where it begins in the file. -/
def seek (f : FatRo) (off : Nat) : (budget cluster at_ : Nat) → Cache → Reads (Option (Nat × Nat) × Cache)
  | budget, cluster, at_, k =>
    if (at_ + f.csize) % 2 ^ 32 ≤ off then
      fatNext f k cluster >>= fun next =>
        if next.1 < 2 then pure (none, next.2)
        else
          match budget with
          | 0 => pure (none, next.2)
          | budget + 1 => seek f off budget next.1 ((at_ + f.csize) % 2 ^ 32) next.2
    else pure (some (cluster, at_), k)

/-- The difference of two numbers of 32 bits. -/
def sub32 (a b : Nat) : Nat := (a + 2 ^ 32 - b) % 2 ^ 32

/-- The loop of `fatro_read` that copies.  Every pass copies a byte at least, so `len` is enough fuel. -/
def copyFrom (f : FatRo) (off len : Nat) : (fuel done cluster at_ : Nat) → (buf : Nat → UInt8) →
    Option FatRoCursor → Cache → Reads Copied
  | 0, done, _, _, buf, cursor, k => pure ⟨done, buf, cursor, k⟩
  | fuel + 1, done, cluster, at_, buf, cursor, k =>
    if len ≤ done ∨ f.beyond cluster then pure ⟨done, buf, cursor, k⟩
    else
      let inCluster := sub32 (off + done) at_
      read (some f) (clusterLba f cluster + inCluster / 512) >>= fun answer =>
        match answer with
        | none => pure ⟨done, buf, cursor, k⟩
        | some b =>
          let n := min (512 - inCluster % 512) (len - done)
          let buf := store buf done ((b.1.drop (inCluster % 512)).take n)
          if f.csize ≤ inCluster + n then
            fatNext f k cluster >>= fun next =>
              copyFrom f off len fuel (done + n) next.1 ((at_ + f.csize) % 2 ^ 32) buf
                (cursor.map fun c => { c with cluster := next.1, at_ := (at_ + f.csize) % 2 ^ 32 }) next.2
          else copyFrom f off len fuel (done + n) cluster at_ buf cursor k

/-- `fatro_read`. -/
def fatroRead (f : FatRo) (k : Cache) (e : FatRoEntry) (cursor : Option FatRoCursor) (off : Nat)
    (buf : Nat → UInt8) (len : Nat) : Reads Copied :=
  if e.isDir ∨ len = 0 ∨ e.size ≤ off then pure ⟨0, buf, cursor, k⟩
  else
    let len := min len (e.size - off)
    let resumed := cursor.filter fun c => c.first = e.firstCluster && 2 ≤ c.cluster && c.at_ ≤ off
    let cluster := (resumed.map FatRoCursor.cluster).getD e.firstCluster
    let at_ := (resumed.map FatRoCursor.at_).getD 0
    seek f off ((f.clusters + 2) % 2 ^ 32) cluster at_ k >>= fun r =>
      match r.1 with
      | none => pure ⟨0, buf, cursor, r.2⟩
      | some place =>
        copyFrom f off len len 0 place.1 place.2 buf (cursor.map fun _ => ⟨e.firstCluster, place.1, place.2⟩) r.2

end RPCortex.Card
