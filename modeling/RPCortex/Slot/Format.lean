import RPCortex.Lib.Bytes
import RPCortex.Lib.Crc

/-! The on-flash format of a package slot, from `pkgslot.h`, and the manifest that it stores.  A
slot is a header sector and a body.  The first program page of the header holds the commit record,
the 512 bytes after it the metadata; the body holds the blob, the two recipe arrays and the
initialisers of `.data`. -/

namespace RPCortex.Slot

open Lib

/-- `PKGSLOT_ERASE`, the erase unit. -/
abbrev pkgslotErase : UInt32 := 4096

/-- `PKGSLOT_PROG`, the program unit. -/
abbrev pkgslotProg : UInt32 := 256

/-- `PKGSLOT_HEADER`: the body starts after the header sector. -/
abbrev pkgslotHeader : UInt32 := 4096

/-- `PKGSLOT_META_OFF`. -/
abbrev pkgslotMetaOff : UInt32 := 256

/-- `PKGSLOT_META_BYTES`. -/
abbrev pkgslotMetaBytes : UInt32 := 512

/-- `PKGSLOT_MAGIC`. -/
abbrev pkgslotMagic : UInt32 := 0x534b5052

/-- `PKGSLOT_FORMAT`. -/
abbrev pkgslotFormat : UInt32 := 1

/-- `RPC_API_MAJOR`. -/
abbrev rpcApiMajor : UInt16 := 1

/-- `RPC_API_MINOR`. -/
abbrev rpcApiMinor : UInt16 := 24

/-- `n` bytes of erased flash. -/
def erased (n : Nat) : List UInt8 := List.replicate n 0xFF

@[simp] theorem length_erased (n : Nat) : (erased n).length = n := List.length_replicate

@[simp] theorem getElem_erased {n i : Nat} (h : i < (erased n).length) : (erased n)[i] = 0xFF :=
  List.getElem_replicate _

/-! ### Checksums -/

/-- One bit of the reflected CRC-32 polynomial. -/
def crcBit (crc : UInt32) : UInt32 := (crc >>> 1) ^^^ (0xEDB88320 &&& (0 - (crc &&& 1)))

/-- One byte of `pkgslot_crc32`. -/
def crcByte (crc : UInt32) (b : UInt8) : UInt32 := crcBit^[8] (crc ^^^ b.toUInt32)

/-- `pkgslot_crc32`. -/
def pkgslotCrc32 (crc : UInt32) (data : List UInt8) : UInt32 := ~~~data.foldl crcByte (~~~crc)

/-- A checksum can be taken over pieces. -/
theorem pkgslotCrc32_append (crc : UInt32) (a b : List UInt8) :
    pkgslotCrc32 (pkgslotCrc32 crc a) b = pkgslotCrc32 crc (a ++ b) := by
  simp [pkgslotCrc32, List.foldl_append]

theorem toBitVec_crcBit (crc : UInt32) : (crcBit crc).toBitVec = Crc.shiftLow 0xEDB88320#32 crc.toBitVec := by
  have low : (0 - (crc &&& 1)).toBitVec = if crc.toBitVec.getLsbD 0 then BitVec.allOnes 32 else 0 := by
    have mask : (crc &&& 1).toBitVec = crc.toBitVec &&& .twoPow 32 0 := rfl
    rw [UInt32.toBitVec_sub, mask, BitVec.and_twoPow]
    cases crc.toBitVec.getLsbD 0 <;> decide
  rw [crcBit, UInt32.toBitVec_xor, UInt32.toBitVec_and, low, Crc.shiftLow]
  cases crc.toBitVec.getLsbD 0
  · simp
  · simp

theorem toBitVec_crcByte (crc : UInt32) (b : UInt8) :
    (crcByte crc b).toBitVec = Crc.feedLow 0xEDB88320#32 crc.toBitVec b.toBitVec := by
  have bits : Function.Semiconj UInt32.toBitVec crcBit (Crc.shiftLow 0xEDB88320#32) := toBitVec_crcBit
  rw [crcByte, (bits.iterate_right 8).eq]
  rfl

/-- What `pkgslot_crc32` computes from zero is the CRC-32 of the data, and nothing else is. -/
theorem hasCrc32_iff_pkgslotCrc32 {data : List UInt8} {crc : UInt32} :
    Crc.HasCrc32 data crc ↔ pkgslotCrc32 0 data = crc := by
  have register : (data.foldl crcByte (~~~0)).toBitVec =
      (data.map UInt8.toBitVec).foldl (Crc.feedLow 0xEDB88320#32) (BitVec.allOnes 32) := by
    rw [List.foldl_map, show BitVec.allOnes 32 = (~~~(0 : UInt32)).toBitVec by decide]
    exact (List.foldl_hom UInt32.toBitVec fun crc b => (toBitVec_crcByte crc b).symm).symm
  rw [Crc.hasCrc32_iff, ← UInt32.toBitVec_inj, pkgslotCrc32, ← register]
  rfl

/-! ### Structures -/

/-- `RpcAppHeader`. -/
structure RpcAppHeader where
  magic : UInt32
  apiMajor : UInt16
  apiMinor : UInt16
  name : Vector UInt8 24
  version : Vector UInt8 12
  flags : UInt32
  deriving DecidableEq

/-- `PicGotEntry`. -/
structure PicGotEntry where
  value : UInt32
  cls : UInt8
  isFunc : UInt8
  deriving DecidableEq

/-- `PicAbs32`. -/
structure PicAbs32 where
  site : UInt32
  value : UInt32
  cls : UInt8
  deriving DecidableEq

/-- `PicManifest` without its three pointers. -/
structure PicManifest where
  header : RpcAppHeader
  apiMajor : UInt16
  apiMinor : UInt16
  roSize : UInt32
  textSize : UInt32
  rodataOff : UInt32
  rodataSize : UInt32
  veneerOff : UInt32
  veneerSize : UInt32
  entryOff : UInt32
  gotBytes : UInt32
  dataOff : UInt32
  dataSize : UInt32
  ramSize : UInt32
  gotCount : UInt32
  absCount : UInt32
  deriving DecidableEq

/-- A manifest that owns its arrays, as `app_pic_install` fills it.  The lists are the memory the
pointers address, so there is an entry for each one that is counted, and no array is larger than
the address space. -/
structure OwnedManifest extends PicManifest where
  got : List PicGotEntry
  abs : List PicAbs32
  dataInit : List UInt8
  got_length : got.length = gotCount.toNat
  abs_length : abs.length = absCount.toNat
  dataInit_length : dataInit.length = dataSize.toNat
  got_fits : 8 * gotCount.toNat < 2 ^ 32
  abs_fits : 12 * absCount.toNat < 2 ^ 32

/-- A manifest whose arrays are in a mapped slot, at these offsets from its base. -/
structure BorrowedManifest extends PicManifest where
  got : Nat
  abs : Nat
  dataInit : Nat
  deriving DecidableEq

/-- `PkgSlotCommit`. -/
structure PkgSlotCommit where
  magic : UInt32
  format : UInt32
  bodyBytes : UInt32
  bodyCrc : UInt32
  metaCrc : UInt32
  reserved : Vector UInt8 12
  deriving DecidableEq

/-- `PkgSlotMeta`. -/
structure PkgSlotMeta where
  header : RpcAppHeader
  apiMajor : UInt16
  apiMinor : UInt16
  gotEntrySize : UInt16
  absEntrySize : UInt16
  roSize : UInt32
  textSize : UInt32
  rodataOff : UInt32
  rodataSize : UInt32
  veneerOff : UInt32
  veneerSize : UInt32
  entryOff : UInt32
  gotBytes : UInt32
  dataOff : UInt32
  dataSize : UInt32
  ramSize : UInt32
  gotCount : UInt32
  absCount : UInt32
  blobOff : UInt32
  gotOff : UInt32
  absOff : UInt32
  dataInitOff : UInt32
  bodyBytes : UInt32
  abiSymCount : UInt32
  abiPrefixCrc : UInt32
  deriving DecidableEq

/-! ### Layouts -/

namespace RpcAppHeader

def codec : Codec RpcAppHeader :=
  (Codec.u32.pair <| Codec.u16.pair <| Codec.u16.pair <| (Codec.bytes 24).pair <|
    (Codec.bytes 12).pair Codec.u32).map
    (fun (magic, apiMajor, apiMinor, name, version, flags) =>
      { magic, apiMajor, apiMinor, name, version, flags })
    (fun h => (h.magic, h.apiMajor, h.apiMinor, h.name, h.version, h.flags))
    fun _ => rfl

end RpcAppHeader

namespace PicGotEntry

/-- Two bytes of padding end the entry. -/
def codec : Codec PicGotEntry :=
  (Codec.u32.pair <| Codec.u8.pair <| Codec.u8.pair (Codec.pad 2 0)).map
    (fun (value, cls, isFunc, _) => { value, cls, isFunc })
    (fun e => (e.value, e.cls, e.isFunc, ()))
    fun _ => rfl

end PicGotEntry

namespace PicAbs32

/-- Three bytes of padding end the entry. -/
def codec : Codec PicAbs32 :=
  (Codec.u32.pair <| Codec.u32.pair <| Codec.u8.pair (Codec.pad 3 0)).map
    (fun (site, value, cls, _) => { site, value, cls })
    (fun e => (e.site, e.value, e.cls, ()))
    fun _ => rfl

/-- `sizeof(PicAbs32)`. -/
theorem size_codec : codec.size = 12 := rfl

end PicAbs32

namespace PkgSlotCommit

def codec : Codec PkgSlotCommit :=
  (Codec.u32.pair <| Codec.u32.pair <| Codec.u32.pair <| Codec.u32.pair <|
    Codec.u32.pair (Codec.bytes 12)).map
    (fun (magic, format, bodyBytes, bodyCrc, metaCrc, reserved) =>
      { magic, format, bodyBytes, bodyCrc, metaCrc, reserved })
    (fun c => (c.magic, c.format, c.bodyBytes, c.bodyCrc, c.metaCrc, c.reserved))
    fun _ => rfl

theorem size_codec : codec.size = 32 := rfl

end PkgSlotCommit

namespace PkgSlotMeta

def codec : Codec PkgSlotMeta :=
  (RpcAppHeader.codec.pair <| Codec.u16.pair <| Codec.u16.pair <| Codec.u16.pair <|
    Codec.u16.pair <| Codec.u32.pair <| Codec.u32.pair <| Codec.u32.pair <| Codec.u32.pair <|
    Codec.u32.pair <| Codec.u32.pair <| Codec.u32.pair <| Codec.u32.pair <| Codec.u32.pair <|
    Codec.u32.pair <| Codec.u32.pair <| Codec.u32.pair <| Codec.u32.pair <| Codec.u32.pair <|
    Codec.u32.pair <| Codec.u32.pair <| Codec.u32.pair <| Codec.u32.pair <|
    Codec.u32.pair Codec.u32).map
    (fun (header, apiMajor, apiMinor, gotEntrySize, absEntrySize, roSize, textSize, rodataOff,
        rodataSize, veneerOff, veneerSize, entryOff, gotBytes, dataOff, dataSize, ramSize, gotCount,
        absCount, blobOff, gotOff, absOff, dataInitOff, bodyBytes, abiSymCount, abiPrefixCrc) =>
      { header, apiMajor, apiMinor, gotEntrySize, absEntrySize, roSize, textSize, rodataOff,
        rodataSize, veneerOff, veneerSize, entryOff, gotBytes, dataOff, dataSize, ramSize, gotCount,
        absCount, blobOff, gotOff, absOff, dataInitOff, bodyBytes, abiSymCount, abiPrefixCrc })
    (fun m => (m.header, m.apiMajor, m.apiMinor, m.gotEntrySize, m.absEntrySize, m.roSize,
      m.textSize, m.rodataOff, m.rodataSize, m.veneerOff, m.veneerSize, m.entryOff, m.gotBytes,
      m.dataOff, m.dataSize, m.ramSize, m.gotCount, m.absCount, m.blobOff, m.gotOff, m.absOff,
      m.dataInitOff, m.bodyBytes, m.abiSymCount, m.abiPrefixCrc))
    fun _ => rfl

theorem size_codec : codec.size = 136 := rfl

/-- The manifest that a slot's metadata stores. -/
def manifest (m : PkgSlotMeta) : PicManifest where
  header := m.header
  apiMajor := m.apiMajor
  apiMinor := m.apiMinor
  roSize := m.roSize
  textSize := m.textSize
  rodataOff := m.rodataOff
  rodataSize := m.rodataSize
  veneerOff := m.veneerOff
  veneerSize := m.veneerSize
  entryOff := m.entryOff
  gotBytes := m.gotBytes
  dataOff := m.dataOff
  dataSize := m.dataSize
  ramSize := m.ramSize
  gotCount := m.gotCount
  absCount := m.absCount

end PkgSlotMeta

end RPCortex.Slot
