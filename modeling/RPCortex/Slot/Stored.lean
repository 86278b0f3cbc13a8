import RPCortex.Lib.Run
import RPCortex.Slot.Format

/-! `pkgslot_open`: what it checks, and what its checks leave open.  The slot is the memory that is
mapped at its base. -/

namespace RPCortex.Slot

open Lib

/-- The identity of the running firmware's table: `api_symbol_count` and `api_abi_prefix_crc`. -/
structure Firmware where
  apiSymbolCount : UInt32
  apiAbiPrefixCrc : UInt32 → UInt32

/-- `PkgSlotStatus` without `PKGSLOT_OK`. -/
inductive PkgSlotStatus
  | empty | badFormat | badCrc | badAbi | badSize | badFw
  deriving DecidableEq, Repr

/-- The commit record of a slot. -/
def commitOf (base : Nat → UInt8) : PkgSlotCommit := PkgSlotCommit.codec.read base 0

/-- The metadata of a slot. -/
def metaOf (base : Nat → UInt8) : PkgSlotMeta :=
  PkgSlotMeta.codec.read base pkgslotMetaOff.toNat

/-- `pkgslot_open` on a slot mapped at `base`. -/
def pkgslotOpen (fw : Firmware) (base : Nat → UInt8) (slotBytes : UInt32) :
    Except PkgSlotStatus BorrowedManifest :=
  let c := commitOf base
  let m := metaOf base
  let body := pkgslotHeader.toNat
  let gotBytesArr := m.gotCount * 8
  let absBytesArr := m.absCount * 12
  if slotBytes ≤ pkgslotHeader then .error .badSize
  else if c.magic ≠ pkgslotMagic then .error .empty
  else if c.format ≠ pkgslotFormat then .error .badFormat
  else if pkgslotCrc32 0 (window base pkgslotMetaOff.toNat pkgslotMetaBytes.toNat) ≠ c.metaCrc then
    .error .badCrc
  else if c.bodyBytes ≠ m.bodyBytes then .error .badCrc
  else if pkgslotHeader.toNat + m.bodyBytes.toNat > slotBytes.toNat then .error .badSize
  else if m.gotEntrySize ≠ 8 ∨ m.absEntrySize ≠ 12 then .error .badFormat
  else if pkgslotCrc32 0 (window base body m.bodyBytes.toNat) ≠ c.bodyCrc then .error .badCrc
  else if m.blobOff.toNat + m.roSize.toNat > m.bodyBytes.toNat then .error .badSize
  else if m.gotOff.toNat + gotBytesArr.toNat > m.bodyBytes.toNat then .error .badSize
  else if m.absOff.toNat + absBytesArr.toNat > m.bodyBytes.toNat then .error .badSize
  else if m.dataInitOff.toNat + m.dataSize.toNat > m.bodyBytes.toNat then .error .badSize
  else if (m.gotOff ||| m.absOff ||| m.blobOff) &&& 3 ≠ 0 then .error .badSize
  else if m.blobOff ≠ 0 then .error .badSize
  else if m.entryOff ≥ m.roSize then .error .badSize
  else if m.gotCount * 4 > m.gotBytes then .error .badSize
  else if m.dataOff.toNat + m.dataSize.toNat > m.ramSize.toNat then .error .badSize
  else if m.apiMajor ≠ rpcApiMajor ∨ m.apiMinor > rpcApiMinor then .error .badAbi
  else if m.abiSymCount ≠ 0xFFFFFFFF ∧ (m.abiSymCount > fw.apiSymbolCount ∨
      fw.apiAbiPrefixCrc m.abiSymCount ≠ m.abiPrefixCrc) then .error .badFw
  else .ok { m.manifest with
    got := body + m.gotOff.toNat
    abs := body + m.absOff.toNat
    dataInit := body + m.dataInitOff.toNat }

/-- What a slot that opens has passed. -/
structure Checked (fw : Firmware) (base : Nat → UInt8) (slotBytes : UInt32) (c : PkgSlotCommit)
    (m : PkgSlotMeta) : Prop where
  slot : 4096 < slotBytes.toNat
  magic : c.magic = pkgslotMagic
  format : c.format = pkgslotFormat
  metaCrc : pkgslotCrc32 0 (window base pkgslotMetaOff.toNat pkgslotMetaBytes.toNat) = c.metaCrc
  bodyBytes : c.bodyBytes = m.bodyBytes
  body : 4096 + m.bodyBytes.toNat ≤ slotBytes.toNat
  entrySizes : m.gotEntrySize = 8 ∧ m.absEntrySize = 12
  bodyCrc : pkgslotCrc32 0 (window base 4096 m.bodyBytes.toNat) = c.bodyCrc
  blob : m.blobOff.toNat + m.roSize.toNat ≤ m.bodyBytes.toNat
  got : m.gotOff.toNat + (m.gotCount * 8).toNat ≤ m.bodyBytes.toNat
  abs : m.absOff.toNat + (m.absCount * 12).toNat ≤ m.bodyBytes.toNat
  dataInit : m.dataInitOff.toNat + m.dataSize.toNat ≤ m.bodyBytes.toNat
  aligned : (m.gotOff ||| m.absOff ||| m.blobOff) &&& 3 = 0
  blobOff : m.blobOff = 0
  entry : m.entryOff < m.roSize
  gotBytes : m.gotCount * 4 ≤ m.gotBytes
  data : m.dataOff.toNat + m.dataSize.toNat ≤ m.ramSize.toNat
  api : m.apiMajor = rpcApiMajor ∧ m.apiMinor ≤ rpcApiMinor
  identity : m.abiSymCount = 0xFFFFFFFF ∨
    m.abiSymCount ≤ fw.apiSymbolCount ∧ fw.apiAbiPrefixCrc m.abiSymCount = m.abiPrefixCrc

/-- What `pkgslot_open` reports of checked metadata. -/
def PkgSlotMeta.opened (m : PkgSlotMeta) : BorrowedManifest :=
  { m.manifest with
    got := 4096 + m.gotOff.toNat
    abs := 4096 + m.absOff.toNat
    dataInit := 4096 + m.dataInitOff.toNat }

section

variable {fw : Firmware} {base : Nat → UInt8} {slotBytes : UInt32} {o : BorrowedManifest}

/-- `pkgslot_open` succeeds exactly on what passes its checks. -/
theorem pkgslotOpen_ok_iff : pkgslotOpen fw base slotBytes = .ok o ↔
    Checked fw base slotBytes (commitOf base) (metaOf base) ∧ o = (metaOf base).opened := by
  unfold pkgslotOpen
  generalize commitOf base = c
  generalize metaOf base = m
  simp only [ite_error_eq_ok, not_not, Except.ok.injEq]
  constructor
  · rintro ⟨slot, magic, format, metaCrc, bodyBytes, body, sizes, bodyCrc, blob, got, abs, dataInit,
      aligned, blobOff, entry, gotBytes, data, api, identity, rfl⟩
    push Not at sizes api identity
    refine ⟨⟨?_, magic, format, metaCrc, bodyBytes, not_lt.mp body, sizes, bodyCrc, not_lt.mp blob,
      not_lt.mp got, not_lt.mp abs, not_lt.mp dataInit, aligned, blobOff, ?_, ?_, not_lt.mp data,
      ?_, ?_⟩, rfl⟩
    · exact UInt32.lt_iff_toNat_lt.mp (UInt32.not_le.mp slot)
    · exact UInt32.not_le.mp entry
    · exact UInt32.not_lt.mp gotBytes
    · exact ⟨api.1, UInt16.not_lt.mp api.2⟩
    · by_cases h : m.abiSymCount = 0xFFFFFFFF
      · exact .inl h
      · exact .inr ⟨UInt32.not_lt.mp (identity h).1, (identity h).2⟩
  · rintro ⟨ch, rfl⟩
    refine ⟨?_, ch.magic, ch.format, ch.metaCrc, ch.bodyBytes, not_lt.mpr ch.body, ?_, ch.bodyCrc,
      not_lt.mpr ch.blob, not_lt.mpr ch.got, not_lt.mpr ch.abs, not_lt.mpr ch.dataInit, ch.aligned,
      ch.blobOff, UInt32.not_le.mpr ch.entry, UInt32.not_lt.mpr ch.gotBytes, not_lt.mpr ch.data, ?_,
      ?_, rfl⟩
    · exact UInt32.not_le.mpr (UInt32.lt_iff_toNat_lt.mpr ch.slot)
    · push Not; exact ch.entrySizes
    · push Not
      exact ⟨ch.api.1, UInt16.not_lt.mpr ch.api.2⟩
    · push Not
      intro h
      have known := ch.identity.resolve_left h
      exact ⟨UInt32.not_lt.mpr known.1, known.2⟩

/-! ### What an opened slot hands out -/

/-- The entries of the absolute-site table that an opened manifest points to. -/
def absTable (base : Nat → UInt8) (o : BorrowedManifest) : List PicAbs32 :=
  PicAbs32.codec.readAll base o.abs o.absCount.toNat

/-- Every region and array of the manifest is inside the body that the slot records, the body is
inside the slot, and what `app_pic_load` writes is inside the RAM block. -/
structure HandsOutSafe (base : Nat → UInt8) (slotBytes : UInt32) (o : BorrowedManifest) : Prop where
  slot : 4096 + (commitOf base).bodyBytes.toNat ≤ slotBytes.toNat
  blob : o.roSize.toNat ≤ (commitOf base).bodyBytes.toNat
  got : 4096 ≤ o.got ∧ o.got + 8 * o.gotCount.toNat ≤ 4096 + (commitOf base).bodyBytes.toNat
  abs : 4096 ≤ o.abs ∧ o.abs + 12 * o.absCount.toNat ≤ 4096 + (commitOf base).bodyBytes.toNat
  dataInit : 4096 ≤ o.dataInit ∧
    o.dataInit + o.dataSize.toNat ≤ 4096 + (commitOf base).bodyBytes.toNat
  veneers : o.veneerOff.toNat + o.veneerSize.toNat ≤ (commitOf base).bodyBytes.toNat
  gotWords : 4 * o.gotCount.toNat ≤ o.ramSize.toNat
  gotBytes : o.gotBytes.toNat ≤ o.ramSize.toNat
  data : o.dataOff.toNat + o.dataSize.toNat ≤ o.ramSize.toNat
  sites : ∀ e ∈ absTable base o, e.site.toNat + 4 ≤ o.ramSize.toNat

/-- What a slot has to satisfy beyond the checks: counts whose products do not wrap, and the three
extents that are not looked at. -/
structure Unchecked (base : Nat → UInt8) (m : PkgSlotMeta) : Prop where
  gotCount : m.gotCount.toNat < 2 ^ 29
  absCount : 12 * m.absCount.toNat < 2 ^ 32
  veneers : m.veneerOff.toNat + m.veneerSize.toNat ≤ m.bodyBytes.toNat
  gotBytes : m.gotBytes ≤ m.ramSize
  sites : ∀ i < m.absCount.toNat,
    (PicAbs32.codec.read base (4096 + m.absOff.toNat + 12 * i)).site.toNat + 4 ≤ m.ramSize.toNat

theorem mem_absTable {e : PicAbs32} : e ∈ absTable base o ↔
    ∃ i < o.absCount.toNat, PicAbs32.codec.read base (o.abs + 12 * i) = e := by
  simp [absTable, Codec.readAll, PicAbs32.size_codec]

/-- A slot that opens is safe to use exactly when it also satisfies what is not checked. -/
theorem handsOutSafe_iff (h : pkgslotOpen fw base slotBytes = .ok o) :
    HandsOutSafe base slotBytes o ↔ Unchecked base (metaOf base) := by
  obtain ⟨ch, rfl⟩ := pkgslotOpen_ok_iff.mp h
  have body := congrArg UInt32.toNat ch.bodyBytes
  have hbody := (metaOf base).bodyBytes.toNat_lt
  have got := ch.got
  have abs := ch.abs
  have gotBytes := UInt32.le_iff_toNat_le.mp ch.gotBytes
  rw [UInt32.toNat_mul] at got abs gotBytes
  have four : (4 : UInt32).toNat = 4 := rfl
  have eight : (8 : UInt32).toNat = 8 := rfl
  have twelve : (12 : UInt32).toNat = 12 := rfl
  rw [four] at gotBytes
  rw [eight] at got
  rw [twelve] at abs
  constructor
  · intro safe
    have hgot : 4096 + (metaOf base).gotOff.toNat + 8 * (metaOf base).gotCount.toNat ≤
        4096 + (commitOf base).bodyBytes.toNat := safe.got.2
    have habs : 4096 + (metaOf base).absOff.toNat + 12 * (metaOf base).absCount.toNat ≤
        4096 + (commitOf base).bodyBytes.toNat := safe.abs.2
    refine ⟨by omega, by omega, ?_, UInt32.le_iff_toNat_le.mpr safe.gotBytes, fun i hi => ?_⟩
    · rw [← body]; exact safe.veneers
    · exact safe.sites _ (mem_absTable.mpr ⟨i, hi, rfl⟩)
  · intro un
    have hcount := un.gotCount
    have habs := un.absCount
    have hram := UInt32.le_iff_toNat_le.mp un.gotBytes
    rw [Nat.mod_eq_of_lt (by omega)] at got abs gotBytes
    constructor
    case slot => rw [body]; exact ch.body
    case blob =>
      have := ch.blob
      rw [ch.blobOff] at this
      rw [body]
      simpa [PkgSlotMeta.opened, PkgSlotMeta.manifest] using this
    case got =>
      refine ⟨Nat.le_add_right _ _, ?_⟩
      simp only [PkgSlotMeta.opened, PkgSlotMeta.manifest]
      omega
    case abs =>
      refine ⟨Nat.le_add_right _ _, ?_⟩
      simp only [PkgSlotMeta.opened, PkgSlotMeta.manifest]
      omega
    case dataInit =>
      have := ch.dataInit
      refine ⟨Nat.le_add_right _ _, ?_⟩
      simp only [PkgSlotMeta.opened, PkgSlotMeta.manifest]
      omega
    case veneers => rw [body]; exact un.veneers
    case gotWords =>
      simp only [PkgSlotMeta.opened, PkgSlotMeta.manifest]
      omega
    case gotBytes => exact hram
    case data => exact ch.data
    case sites =>
      intro e he
      obtain ⟨i, hi, rfl⟩ := mem_absTable.mp he
      exact un.sites i hi

end

end RPCortex.Slot

/-! A slot that holds given metadata over a given body, with the commit record that belongs to
them.  Such a slot opens when the metadata passes the checks, whatever they leave open. -/

namespace RPCortex.Slot

open Lib

/-- The header sector's metadata window: the structure, padded with erased bytes. -/
def metaPage (m : PkgSlotMeta) : List UInt8 := PkgSlotMeta.codec.encode m ++ erased 376

/-- The commit record over metadata and a body. -/
def commitFor (m : PkgSlotMeta) (body : List UInt8) : PkgSlotCommit where
  magic := pkgslotMagic
  format := pkgslotFormat
  bodyBytes := m.bodyBytes
  bodyCrc := pkgslotCrc32 0 body
  metaCrc := pkgslotCrc32 0 (metaPage m)
  reserved := Vector.replicate 12 0

/-- The commit record's program page. -/
def commitPage (c : PkgSlotCommit) : List UInt8 :=
  PkgSlotCommit.codec.encode c ++ erased 224

@[simp] theorem length_metaPage (m : PkgSlotMeta) : (metaPage m).length = 512 := by
  simp [metaPage, PkgSlotMeta.size_codec]

@[simp] theorem length_commitPage (c : PkgSlotCommit) : (commitPage c).length = 256 := by
  simp [commitPage, PkgSlotCommit.size_codec]

/-- The slot holds this metadata, this body and their commit record. -/
structure Stored (base : Nat → UInt8) (m : PkgSlotMeta) (body : List UInt8) : Prop where
  commit : window base 0 256 = commitPage (commitFor m body)
  info : window base 256 512 = metaPage m
  contents : window base 4096 body.length = body
  length : m.bodyBytes.toNat = body.length

/-- The checks of `pkgslot_open` that are about the metadata alone. -/
structure MetaChecked (fw : Firmware) (slotBytes : UInt32) (m : PkgSlotMeta) : Prop where
  slot : 4096 < slotBytes.toNat
  body : 4096 + m.bodyBytes.toNat ≤ slotBytes.toNat
  entrySizes : m.gotEntrySize = 8 ∧ m.absEntrySize = 12
  blob : m.blobOff.toNat + m.roSize.toNat ≤ m.bodyBytes.toNat
  got : m.gotOff.toNat + (m.gotCount * 8).toNat ≤ m.bodyBytes.toNat
  abs : m.absOff.toNat + (m.absCount * 12).toNat ≤ m.bodyBytes.toNat
  dataInit : m.dataInitOff.toNat + m.dataSize.toNat ≤ m.bodyBytes.toNat
  aligned : (m.gotOff ||| m.absOff ||| m.blobOff) &&& 3 = 0
  blobOff : m.blobOff = 0
  entry : m.entryOff < m.roSize
  gotBytes : m.gotCount * 4 ≤ m.gotBytes
  data : m.dataOff.toNat + m.dataSize.toNat ≤ m.ramSize.toNat
  api : m.apiMajor = rpcApiMajor ∧ m.apiMinor ≤ rpcApiMinor
  identity : m.abiSymCount = 0xFFFFFFFF ∨
    m.abiSymCount ≤ fw.apiSymbolCount ∧ fw.apiAbiPrefixCrc m.abiSymCount = m.abiPrefixCrc

section

variable {fw : Firmware} {base : Nat → UInt8} {slotBytes : UInt32} {m : PkgSlotMeta}
  {body : List UInt8}

theorem Stored.commitOf_eq (h : Stored base m body) : commitOf base = commitFor m body :=
  PkgSlotCommit.codec.read_of_append (by decide) h.commit

theorem Stored.metaOf_eq (h : Stored base m body) : metaOf base = m :=
  PkgSlotMeta.codec.read_of_append (by decide) h.info

/-- A stored slot whose metadata passes the checks opens, and reports it. -/
theorem Stored.open (h : Stored base m body) (ch : MetaChecked fw slotBytes m) :
    pkgslotOpen fw base slotBytes = .ok m.opened := by
  refine pkgslotOpen_ok_iff.mpr ?_
  rw [h.commitOf_eq, h.metaOf_eq]
  refine ⟨⟨ch.slot, rfl, rfl, ?_, rfl, ch.body, ch.entrySizes, ?_, ch.blob, ch.got, ch.abs,
    ch.dataInit, ch.aligned, ch.blobOff, ch.entry, ch.gotBytes, ch.data, ch.api, ch.identity⟩, rfl⟩
  · show pkgslotCrc32 0 (window base 256 512) = pkgslotCrc32 0 (metaPage m)
    rw [h.info]
  · show pkgslotCrc32 0 (window base 4096 m.bodyBytes.toNat) = pkgslotCrc32 0 body
    rw [h.length, h.contents]

/-- The bytes of a slot that holds `m` and `body`. -/
def slotImage (m : PkgSlotMeta) (body : List UInt8) : List UInt8 :=
  commitPage (commitFor m body) ++ (metaPage m ++ (erased 3328 ++ body))

theorem stored_slotImage (h : m.bodyBytes.toNat = body.length) :
    Stored (fun i => (slotImage m body).getD i 0xFF) m body := by
  have len : (slotImage m body).length = 4096 + body.length := by
    simp [slotImage]
    omega
  refine ⟨?_, ?_, ?_, h⟩
  · rw [window_list (by omega), List.drop_zero, slotImage, List.take_left' (by simp)]
  · rw [window_list (by omega), slotImage, List.drop_left' (by simp), List.take_left' (by simp)]
  · rw [window_list (by omega)]
    have drop : (slotImage m body).drop 4096 = body := by
      have split : slotImage m body =
          (commitPage (commitFor m body) ++ metaPage m ++ erased 3328) ++ body := by
        simp [slotImage]
      rw [split, List.drop_left' (by simp)]
    rw [drop, List.take_length]

end

/-! ### Two slots -/

/-- A header that no check looks at. -/
def anyHeader : RpcAppHeader :=
  { magic := 0x52504341, apiMajor := 1, apiMinor := 0, name := Vector.replicate 24 0,
    version := Vector.replicate 12 0, flags := 0 }

/-- A firmware with no symbols. -/
def anyFirmware : Firmware := ⟨0, fun _ => 0⟩

/-- Metadata of a package with a four-byte blob over a one-page body. -/
def tinyMeta : PkgSlotMeta :=
  { header := anyHeader, apiMajor := 1, apiMinor := 0, gotEntrySize := 8, absEntrySize := 12,
    roSize := 4, textSize := 4, rodataOff := 4, rodataSize := 0, veneerOff := 4, veneerSize := 0,
    entryOff := 0, gotBytes := 32, dataOff := 32, dataSize := 0, ramSize := 32, gotCount := 0,
    absCount := 0, blobOff := 0, gotOff := 4, absOff := 4, dataInitOff := 4, bodyBytes := 256,
    abiSymCount := 0, abiPrefixCrc := 0 }

/-- The same with 2 ^ 29 GOT entries: eight times that is 0 in 32 bits. -/
def wrappedMeta : PkgSlotMeta :=
  { tinyMeta with gotCount := 0x20000000, gotBytes := 0x80000000, ramSize := 0x80000000 }

theorem tinyMeta_checked : MetaChecked anyFirmware 8192 tinyMeta := by constructor <;> decide

theorem wrappedMeta_checked : MetaChecked anyFirmware 8192 wrappedMeta := by constructor <;> decide

/-- The slot of `m` over an erased page. -/
def erasedSlot (m : PkgSlotMeta) : Nat → UInt8 := fun i => (slotImage m (erased 256)).getD i 0xFF

theorem stored_erasedSlot {m : PkgSlotMeta} (h : m.bodyBytes = 256) :
    Stored (erasedSlot m) m (erased 256) :=
  stored_slotImage (by rw [h, length_erased]; rfl)

/-- The same with one GOT entry and one absolute site behind the blob. -/
def sitedMeta : PkgSlotMeta :=
  { tinyMeta with gotCount := 1, absCount := 1, absOff := 12, dataInitOff := 24 }

def sitedBody : List UInt8 :=
  erased 4 ++ PicGotEntry.codec.encode ⟨0, 0, 1⟩ ++ PicAbs32.codec.encode ⟨28, 0, 0⟩ ++ erased 232

def sitedSlot : Nat → UInt8 := fun i => (slotImage sitedMeta sitedBody).getD i 0xFF

theorem sitedMeta_checked : MetaChecked anyFirmware 8192 sitedMeta := by constructor <;> decide

theorem stored_sitedSlot : Stored sitedSlot sitedMeta sitedBody := stored_slotImage (by decide +kernel)

theorem handsOutSafe_iff_sited : HandsOutSafe sitedSlot 8192 sitedMeta.opened ↔
    Unchecked sitedSlot (metaOf sitedSlot) :=
  handsOutSafe_iff (stored_sitedSlot.open sitedMeta_checked)

/-- A slot that opens and hands out a GOT recipe that is not inside it. -/
theorem not_all_opened_handsOutSafe :
    ¬∀ fw base slotBytes o, pkgslotOpen fw base slotBytes = .ok o →
      HandsOutSafe base slotBytes o := by
  intro h
  have stored := stored_erasedSlot (m := wrappedMeta) rfl
  have safe := h anyFirmware (erasedSlot wrappedMeta) 8192 _ (stored.open wrappedMeta_checked)
  have un := (handsOutSafe_iff (stored.open wrappedMeta_checked)).mp safe
  rw [stored.metaOf_eq] at un
  exact absurd un.gotCount (by decide)

end RPCortex.Slot
