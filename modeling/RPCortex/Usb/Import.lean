import RPCortex.Fat12.Contents
import RPCortex.Lib.Run
import RPCortex.Lib.Text

/-! `usbmsc_import_all`: what the host left on the drive is copied into `/usb`.  A file of `/usb` is
named by the rest of its path.  The results of the storage for each file are the outside's. -/

namespace RPCortex.Usb

open Lib Fat12

/-- What a name in `/usb` stands for. -/
inductive Node
  | file (bytes : List UInt8)
  | dir
  deriving DecidableEq

/-- The directory `/usb`. -/
abbrev Inbox := List UInt8 → Option Node

/-- What the storage answers about one file: whether there is room for it, whether its sink opens
and whether everything is written. -/
structure Outcome where
  room : Bool
  opened : Bool
  stored : Bool

/-- The size that `storage_stat` reports. -/
def statSize (inbox : Inbox) (name : List UInt8) : Option Nat :=
  (inbox name).map fun n => match n with
    | .file bytes => bytes.length
    | .dir => 0

section Volume

variable (f : F12) (d : Disk)

/-- The loop of `usbdrv_import`, or `none` where a read gives nothing. -/
def copyOut (e : F12Entry) :
    (fuel : Nat) → (off : Nat) → F12Cursor → List UInt8 → Option (List UInt8)
  | 0, _, _, taken => some taken
  | fuel + 1, off, cur, taken =>
    if e.size ≤ off then some taken
    else
      let r := f12Read f d e cur off 512
      if r.1 = [] then none else copyOut e fuel (off + r.1.length) r.2 (taken ++ r.1)

/-- `usbdrv_import` of a name into `/usb`.  A copy that failed is removed. -/
def usbdrvImport (o : Outcome) (inbox : Inbox) (name : List UInt8) : Bool × Inbox :=
  match f12Find f d name with
  | none => (false, inbox)
  | some e =>
    if e.isDir then (false, inbox)
    else if !o.opened || inbox name = some .dir then (false, inbox)
    else match copyOut f d e e.size 0 f12CursorInit [] with
      | none => (false, upd inbox name none)
      | some bytes =>
        if o.stored then (true, upd inbox name (some (.file bytes)))
        else (false, upd inbox name none)

/-- `SCAN_MAX`. -/
def scanMax : Nat := 24

/-- The files on the drive. -/
def filesOf : List F12Entry := (f12List f d).filter fun e => !e.isDir

/-- `Scan` after `scan_cb` saw every entry. -/
def scanOf : List F12Entry := (filesOf f d).take scanMax

/-- The loop of `usbmsc_import_all`: how many were taken, whether something was refused, and
`/usb`. -/
def importItems (o : Nat → Outcome) : (items : List F12Entry) → (i : Nat) → Inbox →
    Nat × Bool × Inbox
  | [], _, inbox => (0, false, inbox)
  | e :: items, i, inbox =>
    if statSize inbox e.name = some e.size then importItems o items (i + 1) inbox
    else if !(o i).room then
      let r := importItems o items (i + 1) inbox
      (r.1, true, r.2.2)
    else
      let t := usbdrvImport f d (o i) inbox e.name
      let r := importItems o items (i + 1) t.2
      if t.1 then (r.1 + 1, r.2) else (r.1, true, r.2.2)

/-- `usbmsc_import_all`. -/
def usbmscImportAll (o : Nat → Outcome) (inbox : Inbox) : Nat × Bool × Inbox :=
  importItems f d o (scanOf f d) 0 inbox

/-- A root directory that a host leaves: a name, long or short, belongs to one entry, and a file is
no larger than the volume. -/
structure HostVolume : Prop where
  names : ∀ x ∈ dirScan f d, ∀ y ∈ dirScan f d,
    (ieq y.entry.name x.entry.name || ieq y.short x.entry.name) = true → y = x
  sizes : ∀ x ∈ dirScan f d, x.entry.size ≤ f.clusters * (f.spc * 512)

end Volume

variable {f : F12} {d : Disk} {e : F12Entry} {o : Nat → Outcome} {inbox : Inbox}

/-! ### One file -/

/-- The copy of a file is its contents. -/
theorem copyOut_eq {fuel off : Nat} {cur : F12Cursor} {taken bytes : List UInt8}
    (file : e.isDir = false) (fits : e.size ≤ 2 ^ 32 - 512) (enough : e.size ≤ off + fuel)
    (on : CursorOn f d e cur)
    (front : taken = (chainBytes f d e.size e.firstCluster).take off ∧ taken.length = min off e.size)
    (place : off % 512 = 0 ∨ e.size ≤ off) (h : copyOut f d e fuel off cur taken = some bytes) :
    bytes = fileBytes f d e ∧ bytes.length = e.size := by
  have finished {off : Nat} {taken : List UInt8}
      (front : taken = (chainBytes f d e.size e.firstCluster).take off ∧
        taken.length = min off e.size) (behind : e.size ≤ off) :
      taken = fileBytes f d e ∧ taken.length = e.size := by
    refine ⟨?_, by rw [front.2, Nat.min_eq_right behind]⟩
    have cut := congrArg (List.take e.size) front.1
    rw [List.take_of_length_le (by rw [front.2]; omega), List.take_take,
      Nat.min_eq_left behind] at cut
    exact cut
  induction fuel generalizing off cur taken with
  | zero =>
    obtain rfl := Option.some.inj h
    exact finished front (by omega)
  | succ fuel ih =>
    rw [copyOut] at h
    split at h
    · obtain rfl := Option.some.inj h
      exact finished front ‹_›
    rename_i more
    have aligned : off % 512 = 0 := by omega
    obtain ⟨read, whole, on'⟩ := f12Read_eq file fits (Nat.not_le.mp more) aligned on
    dsimp only at h
    split at h
    · cases h
    rename_i some_
    have length := whole some_
    refine ih (by omega) on' ⟨?_, ?_⟩ (by omega) h
    · rw [front.1, read, ← read, length, read, List.take_add]
    · rw [List.length_append, front.2, length]
      omega

theorem copyOut_start (file : e.isDir = false) (fits : e.size ≤ 2 ^ 32 - 512) {bytes : List UInt8}
    (h : copyOut f d e e.size 0 f12CursorInit [] = some bytes) :
    bytes = fileBytes f d e ∧ bytes.length = e.size :=
  copyOut_eq file fits (by omega) cursorOn_init ⟨by simp, by simp⟩ (by omega) h

/-- No file of a volume is so large that an offset in it could wrap. -/
theorem HostVolume.fits (host : HostVolume f d) {x : Found} (h : x ∈ dirScan f d) :
    x.entry.size ≤ 2 ^ 32 - 512 := by
  have size := host.sizes x h
  have spc := f.spc_lt
  have clusters := f.clusters_lt
  have most : f.clusters * (f.spc * 512) ≤ 4084 * (255 * 512) :=
    Nat.mul_le_mul (by omega) (Nat.mul_le_mul_right _ (by omega))
  omega

/-- A listed name is found as the entry it was listed for. -/
theorem HostVolume.find (host : HostVolume f d) (h : e ∈ f12List f d) :
    f12Find f d e.name = some e := by
  obtain ⟨x, hx, rfl⟩ := List.mem_map.mp h
  have self : (ieq x.entry.name x.entry.name || ieq x.short x.entry.name) = true := by
    rw [ieq_iff.mpr rfl, Bool.true_or]
  let named (y : Found) : Bool := ieq y.entry.name x.entry.name || ieq y.short x.entry.name
  show ((dirScan f d).find? named).map Found.entry = _
  cases found : (dirScan f d).find? named with
  | none => exact absurd self (List.find?_eq_none.mp found x hx)
  | some y =>
    have hit : named y = true := List.find?_some found
    rw [host.names x hx y (List.mem_of_find?_eq_some found) hit]
    rfl

/-- An import that succeeds leaves the contents of the file in `/usb`. -/
theorem usbdrvImport_eq (host : HostVolume f d) (h : e ∈ filesOf f d) {r : Outcome}
    (ok : (usbdrvImport f d r inbox e.name).1 = true) :
    (usbdrvImport f d r inbox e.name).2 = upd inbox e.name (some (.file (fileBytes f d e))) ∧
      (fileBytes f d e).length = e.size := by
  obtain ⟨listed, file⟩ := List.mem_filter.mp h
  have file : e.isDir = false := by simpa using file
  obtain ⟨x, hx, rfl⟩ := List.mem_map.mp listed
  revert ok
  unfold usbdrvImport
  rw [host.find listed]
  simp only [file, Bool.false_eq_true, if_false]
  split
  · exact fun no => nomatch no
  cases copied : copyOut f d x.entry x.entry.size 0 f12CursorInit [] with
  | none => exact fun no => nomatch no
  | some bytes =>
    obtain ⟨rfl, length⟩ := copyOut_start file (host.fits hx) copied
    dsimp only
    split
    · exact fun _ => ⟨rfl, length⟩
    · exact fun no => nomatch no

/-! ### The whole drive -/

/-- What an import is to leave under a name. -/
def arrived (f : F12) (d : Disk) (inbox : Inbox) (e : F12Entry) : Option Node :=
  if statSize inbox e.name = some e.size then inbox e.name else some (.file (fileBytes f d e))

/-- The names of a list of files are told apart. -/
theorem HostVolume.entry_eq (host : HostVolume f d) {e' : F12Entry} (h : e ∈ filesOf f d)
    (h' : e' ∈ filesOf f d) (same : e'.name = e.name) : e' = e := by
  have found := host.find (List.mem_of_mem_filter h)
  have found' := host.find (List.mem_of_mem_filter h')
  rw [same, found] at found'
  exact (Option.some.inj found').symm

/-- The loop leaves every file of its list, unless it was there with its size, and changes no other
name. -/
theorem importItems_arrived (host : HostVolume f d) {items : List F12Entry} {i : Nat}
    (files : ∀ e ∈ items, e ∈ filesOf f d) (h : (importItems f d o items i inbox).2.1 = false) :
    (∀ e ∈ items, (importItems f d o items i inbox).2.2 e.name = arrived f d inbox e) ∧
      ∀ name, name ∉ items.map F12Entry.name →
        (importItems f d o items i inbox).2.2 name = inbox name := by
  induction items generalizing i inbox with
  | nil => exact ⟨fun e no => absurd no List.not_mem_nil, fun _ _ => rfl⟩
  | cons e items ih =>
    have mine : e ∈ filesOf f d := files e (by simp)
    have rest : ∀ e ∈ items, e ∈ filesOf f d := fun x hx => files x (List.mem_cons_of_mem _ hx)
    revert h
    rw [importItems]
    split
    · -- the file is there with its size
      rename_i there
      intro h
      obtain ⟨each, others⟩ := ih rest h
      refine ⟨fun x hx => ?_, fun name hn => others name fun no => hn (by simp [no])⟩
      rcases List.mem_cons.mp hx with rfl | hx
      · by_cases again : x.name ∈ items.map F12Entry.name
        · obtain ⟨y, hy, same⟩ := List.mem_map.mp again
          obtain rfl := host.entry_eq mine (rest y hy) same
          exact each y hy
        · rw [others _ again, arrived, if_pos there]
      · exact each x hx
    rename_i absent
    split
    · exact fun no => Bool.noConfusion no
    dsimp only
    split
    · rename_i taken
      intro h
      obtain ⟨inbox', length⟩ := usbdrvImport_eq host mine taken
      rw [inbox'] at h ⊢
      obtain ⟨each, others⟩ := ih rest h
      have kept (x : F12Entry) (hx : x ∈ filesOf f d) :
          arrived f d (upd inbox e.name (some (.file (fileBytes f d e)))) x = arrived f d inbox x := by
        by_cases same : x.name = e.name
        · obtain rfl := host.entry_eq mine hx same
          have now : statSize (upd inbox x.name (some (.file (fileBytes f d x)))) x.name =
              some x.size := by simp [statSize, length]
          rw [arrived, if_pos now, upd_same, arrived, if_neg absent]
        · rw [arrived, arrived, statSize, statSize, upd_ne same]
      refine ⟨fun x hx => ?_, fun name hn => ?_⟩
      · rcases List.mem_cons.mp hx with rfl | hx
        · by_cases again : x.name ∈ items.map F12Entry.name
          · obtain ⟨y, hy, same⟩ := List.mem_map.mp again
            obtain rfl := host.entry_eq mine (rest y hy) same
            rw [each y hy, kept y mine]
          · rw [others _ again, upd_same, arrived, if_neg absent]
        · rw [each x hx, kept x (rest x hx)]
      · simp only [List.map_cons, List.mem_cons, not_or] at hn
        rw [others name hn.2, upd_ne hn.1]
    · exact fun no => Bool.noConfusion no

/-- When nothing is refused, each of the first `SCAN_MAX` files on the drive is in `/usb` with the
contents that it has on the drive, but a name that was there with the size of the file is left as it
was. -/
theorem usbmscImportAll_arrived (host : HostVolume f d)
    (h : (usbmscImportAll f d o inbox).2.1 = false) :
    ∀ e ∈ scanOf f d, (usbmscImportAll f d o inbox).2.2 e.name = arrived f d inbox e :=
  (importItems_arrived host (fun _ he => List.mem_of_mem_take he) h).1

/-! ### A file that was edited -/

/-- A volume of one directory sector and four clusters. -/
def smallVolume : F12 where
  reserved := 1
  numFats := 1
  rootEntries := 16
  spc := 1
  fatSectors := 1
  firstFat := 1
  firstRoot := 2
  firstData := 3
  clusters := 4
  spc_pos := by decide
  spc_lt := by decide
  clusters_lt := by decide

/-- The entry of `a.txt`, a byte in cluster 2. -/
def noteSlot : List UInt8 :=
  ascii "A       TXT" ++ [0x20, 0x18, 0, 0, 0, 0, 0, 0, 0, 0, 0, 0, 0, 0, 0, 2, 0, 1, 0, 0, 0]

/-- The drive holds the letter `x` in `a.txt`. -/
def noteDisk : Disk where
  bytes := fun a =>
    if a = 1536 then 0x78
    else if a < 1024 then 0xFF
    else if a < 1056 then noteSlot.getD (a - 1024) 0
    else 0

/-- In `/usb` it holds `y`, from before it was edited. -/
def noteInbox : Inbox := fun name =>
  if name = ascii "a.txt" then some (.file (ascii "y")) else none

/-- The storage has room and fails nowhere. -/
def noFailures : Nat → Outcome := fun _ => ⟨true, true, true⟩

/-- The only file. -/
def note : F12Entry := ⟨ascii "a.txt", 1, 0, 2, false⟩

theorem dirScan_noteDisk : dirScan smallVolume noteDisk = [⟨note, ascii "a.txt", 0⟩] := by
  decide +kernel

theorem noteDisk_host : HostVolume smallVolume noteDisk where
  names := by
    intro x hx y hy _
    rw [dirScan_noteDisk, List.mem_singleton] at hx hy
    rw [hx, hy]
  sizes := by
    intro x hx
    rw [dirScan_noteDisk, List.mem_singleton] at hx
    rw [hx]
    decide

theorem filesOf_noteDisk : filesOf smallVolume noteDisk = [note] := by
  rw [filesOf, f12List, dirScan_noteDisk]
  rfl

/-- Without the older file, the contents arrive. -/
theorem usbmscImportAll_arrived_note : ∃ e ∈ scanOf smallVolume noteDisk,
    (usbmscImportAll smallVolume noteDisk noFailures fun _ => none).2.2 e.name =
      arrived smallVolume noteDisk (fun _ => none) e := by
  have scanned : note ∈ scanOf smallVolume noteDisk := by
    rw [scanOf, filesOf_noteDisk]
    decide
  exact ⟨note, scanned, usbmscImportAll_arrived noteDisk_host (by decide +kernel) note scanned⟩

/-- The edit has the size of the older file, and is lost. -/
theorem not_all_arrive :
    ¬∀ f d o inbox, HostVolume f d → (usbmscImportAll f d o inbox).2.1 = false →
      ∀ e ∈ filesOf f d,
        (usbmscImportAll f d o inbox).2.2 e.name = some (.file (fileBytes f d e)) := by
  intro all
  have lost := all smallVolume noteDisk noFailures noteInbox noteDisk_host (by decide +kernel) note
    (by rw [filesOf_noteDisk]; simp)
  exact absurd lost (by decide +kernel)

end RPCortex.Usb
