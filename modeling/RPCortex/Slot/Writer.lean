import RPCortex.Slot.Stored

/-! The slot writer of `pkgslot.cpp` over a flash that erases to ones and whose programs only clear
bits.  `SlotFlash` says which operations the flash accepts; one it refuses has no effect.  The
writer carries the operations it has performed, so that an install can be cut between any two. -/

namespace RPCortex.Slot

open Lib

/-! ### The flash -/

/-- An erase of `[off, off + len)`, or a program of `data` at `off`. -/
inductive FlashOp
  | erase (off len : UInt32)
  | program (off : UInt32) (data : List UInt8)
  deriving DecidableEq

/-- What an operation does to the bytes of the flash. -/
def FlashOp.apply (f : Nat → UInt8) : FlashOp → Nat → UInt8
  | .erase off len => fun i =>
    if off.toNat ≤ i ∧ i < off.toNat + len.toNat then 0xFF else f i
  | .program off data => fun i =>
    if off.toNat ≤ i ∧ i < off.toNat + data.length then f i &&& data.getD (i - off.toNat) 0xFF
    else f i

/-- The flash after a sequence of operations. -/
def applyAll (f : Nat → UInt8) (ops : List FlashOp) : Nat → UInt8 := ops.foldl FlashOp.apply f

/-- `SlotFlash`: whether the next operation is accepted, after those already performed. -/
abbrev SlotFlash := List FlashOp → FlashOp → Bool

/-! ### The writer -/

/-- `PkgSlotWriter`.  `page` holds the first `page_fill` bytes of the page buffer.  Ghost: `ops`
lists the operations performed. -/
structure PkgSlotWriter where
  slotOff : UInt32
  slotBytes : UInt32
  cursor : UInt32
  erasedTo : UInt32
  crc : UInt32
  pageBase : UInt32
  page : List UInt8
  failed : Bool
  ops : List FlashOp

namespace PkgSlotWriter

/-- Performs an operation that the flash accepts. -/
def perform (fl : SlotFlash) (w : PkgSlotWriter) (op : FlashOp) : Bool × PkgSlotWriter :=
  if fl w.ops op then (true, { w with ops := w.ops ++ [op] }) else (false, w)

/-- The writer with `failed` set. -/
def fail (w : PkgSlotWriter) : PkgSlotWriter := { w with failed := true }

end PkgSlotWriter

open PkgSlotWriter

/-- `pkgslot_begin`. -/
def pkgslotBegin (fl : SlotFlash) (slotOff slotBytes : UInt32) : Bool × PkgSlotWriter :=
  let w : PkgSlotWriter := ⟨slotOff, slotBytes, 0, 0, 0, 0, [], false, []⟩
  if slotBytes ≤ pkgslotHeader then (false, w)
  else if slotOff % pkgslotErase ≠ 0 ∨ slotBytes % pkgslotErase ≠ 0 then (false, w)
  else match w.perform fl (.erase slotOff pkgslotHeader) with
    | (true, w) => (true, w)
    | (false, w) => (false, w.fail)

/-- `erase_to`. -/
def eraseTo (fl : SlotFlash) (w : PkgSlotWriter) (need : UInt32) : Bool × PkgSlotWriter :=
  if need ≤ w.erasedTo then (true, w)
  else
    let want := alignUp need pkgslotErase
    if pkgslotHeader + want > w.slotBytes then (false, w)
    else match w.perform fl
        (.erase (w.slotOff + pkgslotHeader + w.erasedTo) (want - w.erasedTo)) with
      | (true, w) => (true, { w with erasedTo := want })
      | (false, w) => (false, w)

/-- `flush_page`. -/
def flushPage (fl : SlotFlash) (w : PkgSlotWriter) : Bool × PkgSlotWriter :=
  if w.page = [] then (true, w)
  else
    let n := alignUp (UInt32.ofNat w.page.length) pkgslotProg
    let padded := w.page ++ erased (n.toNat - w.page.length)
    match eraseTo fl w (w.pageBase + n) with
    | (false, w) => (false, w)
    | (true, w) => match w.perform fl
        (.program (w.slotOff + pkgslotHeader + w.pageBase) padded) with
      | (false, w) => (false, w)
      | (true, w) =>
        (true, { w with crc := pkgslotCrc32 w.crc padded, pageBase := w.pageBase + n, page := [] })

/-- `body_append`.  The page is never full here: a full one is flushed at once. -/
def bodyAppend (fl : SlotFlash) (w : PkgSlotWriter) (data : List UInt8) : Bool × PkgSlotWriter :=
  if data = [] then (true, w)
  else
    let n := min data.length (pkgslotProg.toNat - w.page.length)
    if n = 0 then (false, w)
    else
      let w := { w with page := w.page ++ data.take n, cursor := w.cursor + UInt32.ofNat n }
      if w.page.length = pkgslotProg.toNat then
        match flushPage fl w with
        | (false, w) => (false, w)
        | (true, w) => bodyAppend fl w (data.drop n)
      else bodyAppend fl w (data.drop n)
termination_by data.length
decreasing_by
  all_goals
    have : data ≠ [] := ‹_›
    have := List.length_pos_iff.mpr this
    simp only [List.length_drop]
    omega

/-- `body_pad_to`. -/
def bodyPadTo (fl : SlotFlash) (w : PkgSlotWriter) (dst : UInt32) : Bool × PkgSlotWriter :=
  if w.cursor < dst then bodyAppend fl w (erased (dst - w.cursor).toNat) else (true, w)

/-- `pkgslot_sink`. -/
def pkgslotSink (fl : SlotFlash) (w : PkgSlotWriter) (off : UInt32) (data : List UInt8) :
    Bool × PkgSlotWriter :=
  if w.failed then (false, w)
  else if off ≠ w.cursor then (false, w.fail)
  else if pkgslotHeader + w.cursor + UInt32.ofNat data.length > w.slotBytes then (false, w.fail)
  else match bodyAppend fl w data with
    | (false, w) => (false, w.fail)
    | (true, w) => (true, w)

/-- The metadata that `pkgslot_commit` records. -/
def metaFor (fw : Firmware) (m : PicManifest) (gotOff absOff dataInitOff bodyBytes : UInt32) :
    PkgSlotMeta where
  header := m.header
  apiMajor := m.apiMajor
  apiMinor := m.apiMinor
  gotEntrySize := 8
  absEntrySize := 12
  roSize := m.roSize
  textSize := m.textSize
  rodataOff := m.rodataOff
  rodataSize := m.rodataSize
  veneerOff := m.veneerOff
  veneerSize := m.veneerSize
  entryOff := m.entryOff
  gotBytes := m.gotBytes
  dataOff := m.dataOff
  dataSize := m.dataSize
  ramSize := m.ramSize
  gotCount := m.gotCount
  absCount := m.absCount
  blobOff := 0
  gotOff := gotOff
  absOff := absOff
  dataInitOff := dataInitOff
  bodyBytes := bodyBytes
  abiSymCount := fw.apiSymbolCount
  abiPrefixCrc := fw.apiAbiPrefixCrc fw.apiSymbolCount

/-- One array of `pkgslot_commit`: pads to a word and appends the bytes, if there are any. -/
def appendArray (fl : SlotFlash) (w : PkgSlotWriter) (data : List UInt8) : Bool × PkgSlotWriter :=
  match bodyPadTo fl w (alignUp w.cursor 4) with
  | (false, w) => (false, w)
  | (true, w) => bodyAppend fl w data

/-- The two programs that end `pkgslot_commit`: the metadata and, last of all, the commit record. -/
def writeHeader (fl : SlotFlash) (w : PkgSlotWriter) (m : PkgSlotMeta) : Bool × PkgSlotWriter :=
  match w.perform fl (.program (w.slotOff + pkgslotMetaOff) (metaPage m)) with
  | (false, w) => (false, w)
  | (true, w) => w.perform fl (.program w.slotOff (commitPage
      { magic := pkgslotMagic
        format := pkgslotFormat
        bodyBytes := m.bodyBytes
        bodyCrc := w.crc
        metaCrc := pkgslotCrc32 0 (metaPage m)
        reserved := Vector.replicate 12 0 }))

/-- `pkgslot_commit`. -/
def pkgslotCommit (fl : SlotFlash) (fw : Firmware) (w : PkgSlotWriter) (m : OwnedManifest) :
    Bool × PkgSlotWriter :=
  if w.failed then (false, w)
  else if w.cursor ≠ m.roSize then (false, w.fail)
  else
    let gotOff := alignUp w.cursor 4
    match appendArray fl w (PicGotEntry.codec.encodeAll m.got) with
    | (false, w) => (false, w.fail)
    | (true, w) =>
      let absOff := alignUp w.cursor 4
      match appendArray fl w (PicAbs32.codec.encodeAll m.abs) with
      | (false, w) => (false, w.fail)
      | (true, w) =>
        let dataInitOff := alignUp w.cursor 4
        match appendArray fl w m.dataInit with
        | (false, w) => (false, w.fail)
        | (true, w) => match flushPage fl w with
          | (false, w) => (false, w.fail)
          | (true, w) => match writeHeader fl w
              (metaFor fw m.toPicManifest gotOff absOff dataInitOff w.pageBase) with
            | (false, w) => (false, w.fail)
            | (true, w) => (true, w)

/-- An install: `pkgslot_begin`, the calls of `pkgslot_sink`, `pkgslot_commit`. -/
def install (fl : SlotFlash) (fw : Firmware) (slotOff slotBytes : UInt32)
    (calls : List (UInt32 × List UInt8)) (m : OwnedManifest) : Bool × PkgSlotWriter :=
  match pkgslotBegin fl slotOff slotBytes with
  | (false, w) => (false, w)
  | (true, w) =>
    let w := calls.foldl (fun w call => (pkgslotSink fl w call.1 call.2).2) w
    pkgslotCommit fl fw w m

end RPCortex.Slot
