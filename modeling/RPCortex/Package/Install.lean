import RPCortex.Package.Index
import RPCortex.Slot.Atomic

/-! `pkg_install_file` over the files and the flash slot of a device.  A board has one slot or none.
What the rest of the system answers, the storage, the flash, the loader and the tasks, is in
`Outcomes`; there are no loops, so each call has its own.  A failing install says which of its
returns was taken, as its messages do. -/

namespace RPCortex.Package

open Lib Slot

/-- The files, and the bytes of the slot where the board has one. -/
structure Device where
  files : List UInt8 → Option (List UInt8)
  slot : Option (Nat → UInt8)

/-- `storage_pkg_slot_bytes()`. -/
def pkgSlotBytes : UInt32 := 262144

/-- `PKG_INDEX`. -/
def pkgIndex : List UInt8 := ascii "/os/pkg/index.cfg"

/-- `pkg_path`. -/
def pkgPath (name : List UInt8) : List UInt8 := ascii "/os/pkg/" ++ name ++ ascii ".app"

/-- `PicMeasure`. -/
structure PicMeasure where
  pic : Bool
  bodyBound : UInt32

/-- How `storage_copy` ends: before the target is opened, at a read after some chunks of 256 bytes,
at a write, or behind the last chunk. -/
inductive CopyEnd
  | refused
  | readFails (chunks : Nat)
  | writeFails
  | done

/-- What the calls of an install return.  `installed` is the manifest of `app_pic_install`, `calls`
are its calls of the sink. -/
structure Outcomes where
  opened : Bool
  peeked : Option RpcAppHeader
  busy : Bool
  stoodAside : Bool
  measured : Option PicMeasure
  veneerSvc : Bool
  resident : Bool
  unloaded : Bool
  flash : SlotFlash
  calls : List (UInt32 × List UInt8)
  installed : Option OwnedManifest
  loaded : Bool
  removed : Bool
  renamed : Bool
  copied : CopyEnd
  closed : Bool
  busyThen : Bool
  indexBuffer : Bool
  indexRead : Bool
  indexRoom : Bool

/-- The returns of false. -/
inductive Refusal
  | noSuchFile
  | notValid
  | running
  | slotRunning
  | slotWrite (erased : Bool)
  | notLoaded
  | notPlaced (slot : Bool)
  deriving DecidableEq

/-- `pkg_installed_version`. -/
def installedVersion (d : Device) (name : List UInt8) : Option (List UInt8) :=
  versionIn (((d.files pkgIndex).getD []).take (idxBuf - 1)) name

/-! ### Storage -/

/-- `storage_remove`. -/
def storageRemove (d : Device) (path : List UInt8) (ok : Bool) : Device :=
  if ok then { d with files := upd d.files path none } else d

/-- `storage_rename`. -/
def storageRename (d : Device) (source target : List UInt8) (ok : Bool) : Bool × Device :=
  if ok ∧ (d.files source).isSome then
    (true, { d with files := upd (upd d.files target (d.files source)) source none })
  else (false, d)

/-- The target of `storage_copy` or `storage_write_file` once it is open: what is written is in the
file when it is closed. -/
def created (d : Device) (path : List UInt8) : Device :=
  if (d.files path).isSome then d else { d with files := upd d.files path (some []) }

/-- `storage_copy`. -/
def storageCopy (d : Device) (source target : List UInt8) (e : CopyEnd) (closed : Bool) :
    Bool × Device :=
  match d.files source with
  | none => (false, d)
  | some bytes =>
    let write (taken : List UInt8) : Device :=
      if closed then { d with files := upd d.files target (some taken) } else created d target
    match e with
    | .refused => (false, d)
    | .readFails chunks => (false, write (bytes.take (256 * chunks)))
    -- a file whose write failed is not committed by its close
    | .writeFails => (false, created d target)
    | .done => (true, write bytes)

/-- `index_add`. -/
def indexAdd (o : Outcomes) (d : Device) (name version : List UInt8) : Device :=
  if !o.indexBuffer then d
  else
    let buf := if o.indexRead then ((d.files pkgIndex).getD []).take (idxBuf - 1) else []
    if o.indexRoom then
      { d with files := upd d.files pkgIndex (some (pkgindexAdd buf name version)) }
    else d

/-! ### The slot -/

section Firmware

variable (fw : Firmware)

/-- `slot_view`: what the slot holds, when it can be used. -/
def slotView (d : Device) : Option BorrowedManifest :=
  d.slot.bind fun base =>
    match pkgslotOpen fw base pkgSlotBytes with
    | .ok m => some m
    | .error _ => none

/-- The string in a field of characters. -/
def text {n : Nat} (chars : Vector UInt8 n) : List UInt8 := cstr chars.toList

/-- `slot_holding`. -/
def slotHolding (d : Device) (name : List UInt8) : Bool :=
  match slotView fw d with
  | some m => text m.header.name = name
  | none => false

/-- `slot_available`. -/
def slotAvailable (d : Device) (name : List UInt8) : Bool :=
  match slotView fw d with
  | some m => text m.header.name = name
  | none => d.slot.isSome

/-- `slot_release`. -/
def slotRelease (o : Outcomes) (d : Device) : Device :=
  if o.flash [] (.erase 0 pkgslotHeader) then
    { d with slot := d.slot.map fun base => (FlashOp.erase 0 pkgslotHeader).apply base }
  else d

/-- `PkgRoute`. -/
inductive PkgRoute
  | copy
  | slot
  | tooBig
  deriving DecidableEq

/-- `PkgRouteIn`. -/
structure PkgRouteIn where
  pic : Bool
  svc : Bool
  slotFree : Bool
  slotBytes : UInt32
  needBytes : UInt32

/-- `pkgslot_body_capacity`. -/
def pkgslotBodyCapacity (slotBytes : UInt32) : UInt32 :=
  if slotBytes ≤ pkgslotHeader then 0 else alignDown (slotBytes - pkgslotHeader) pkgslotProg

/-- `pkg_route`. -/
def pkgRoute (i : PkgRouteIn) : PkgRoute :=
  if !i.pic || !i.svc then .copy
  else if i.slotBytes = 0 || !i.slotFree then .copy
  else if alignUp i.needBytes pkgslotProg > pkgslotBodyCapacity i.slotBytes then .tooBig
  else .slot

/-- The route that `pkg_install_file` decides on. -/
def routeOf (o : Outcomes) (d : Device) (name : List UInt8) : PkgRoute :=
  match d.slot, o.measured with
  | some _, some pm => pkgRoute
      ⟨pm.pic, o.veneerSvc, slotAvailable fw d name, pkgSlotBytes, pm.bodyBound⟩
  | _, _ => pkgRoute ⟨false, false, false, 0, 0⟩

/-- `slot_write`: whether it succeeded, whether the slot was erased, and the slot. -/
def slotWrite (o : Outcomes) (base : Nat → UInt8) : Bool × Bool × (Nat → UInt8) :=
  match pkgslotBegin o.flash 0 pkgSlotBytes with
  | (false, w) => (false, false, applyAll base w.ops)
  | (true, w) =>
    let w := o.calls.foldl (fun w call => (pkgslotSink o.flash w call.1 call.2).2) w
    match o.installed with
    | none => (false, true, applyAll base w.ops)
    | some m =>
      let c := pkgslotCommit o.flash fw w m
      (c.1, true, applyAll base c.2.ops)

/-! ### Installing -/

/-- The part of `install_finish` that puts the file where it belongs. -/
def place (o : Outcomes) (d : Device) (file dst : List UInt8) (consume : Bool) : Bool × Device :=
  if file = dst then (true, d)
  else if consume then
    let moved := storageRename (storageRemove d dst o.removed) file dst o.renamed
    if moved.1 then moved else storageCopy moved.2 file dst o.copied o.closed
  else storageCopy d file dst o.copied o.closed

/-- `install_finish`. -/
def installFinish (o : Outcomes) (d : Device) (file name version : List UInt8) (consume slot : Bool) :
    Except Refusal Unit × Device :=
  let placed := place o d file (pkgPath name) consume
  if !placed.1 then (.error (.notPlaced slot), placed.2)
  else
    let d := placed.2
    let d := if !slot && slotHolding fw d name && !o.busyThen then slotRelease o d else d
    (.ok (), indexAdd o d name version)

/-- `pkg_install_file`. -/
def pkgInstallFile (o : Outcomes) (d : Device) (file : List UInt8) (consume : Bool) :
    Except Refusal Unit × Device :=
  if (d.files file).isNone || !o.opened then (.error .noSuchFile, d)
  else match o.peeked with
  | none => (.error .notValid, d)
  | some hdr =>
    let name := (text hdr.name).take 23
    let version := (text hdr.version).take 11
    if o.busy && !o.stoodAside then (.error .running, d)
    else if routeOf fw o d name = .slot then
      if o.resident && !o.unloaded then (.error .slotRunning, d)
      else match d.slot with
      -- a board without a slot does not take this route
      | none => (.error .slotRunning, d)
      | some base =>
        let w := slotWrite fw o base
        let d := { d with slot := some w.2.2 }
        if !w.1 then (.error (.slotWrite w.2.1), d)
        else installFinish fw o d file name version consume true
    else if !o.loaded then (.error .notLoaded, d)
    else installFinish fw o d file name version consume false

/-! ### The next boot -/

/-- What `load_cb` loads: the slot, with what it reports, or a file. -/
inductive Image
  | slot (base : Nat → UInt8) (m : BorrowedManifest)
  | file (bytes : List UInt8)

/-- The image that the next boot loads under a name. -/
def nextImage (d : Device) (name : List UInt8) : Option Image :=
  match d.slot, slotView fw d with
  | some base, some m =>
    if text m.header.name = name then some (.slot base m) else (d.files (pkgPath name)).map .file
  | _, _ => (d.files (pkgPath name)).map .file

end Firmware

end RPCortex.Package
