import RPCortex.Lib.Ensures
import RPCortex.Slot.Format

/-! The relocatable objects that the package loader reads: where their bytes come from, and the
structures of `elf.h`. -/

namespace RPCortex.Loader

open Lib Slot

/-- `LoadResult` without `LOAD_OK`. -/
inductive LoadResult
  | read | notElf | notRel | notArm | noHeader | badMagic | apiMismatch | oom | noEntry
  | undefSymbol
  | relocUnsupported | relocRange | tooManySections | slotAlign | badSection
  deriving DecidableEq, Repr

/-- `AppSource`: the bytes that `read` delivers and the size that the source states, 0 for none. -/
structure AppSource where
  bytes : List UInt8
  size : UInt32
  deriving DecidableEq

/-- `read_exact`.  `read` counts in an `int`. -/
def readExact (src : AppSource) (off len : UInt32) : Option (List UInt8) :=
  if len = 0 then some []
  else if src.size ≠ 0 ∧ off.toNat + len.toNat > src.size.toNat then none
  else if off.toNat + len.toNat ≤ src.bytes.length ∧ len.toNat < 2 ^ 31 then
    some ((src.bytes.drop off.toNat).take len.toNat)
  else none

theorem length_readExact {src : AppSource} {off len : UInt32} {bytes : List UInt8}
    (h : readExact src off len = some bytes) : bytes.length = len.toNat := by
  unfold readExact at h
  split at h
  · rename_i zero
    cases h
    rw [zero]
    rfl
  split at h
  · cases h
  split at h
  · rename_i inside
    cases h
    rw [List.length_take, List.length_drop]
    omega
  · cases h

/-! ### Structures -/

/-- `Elf32_Ehdr`. -/
structure Elf32Ehdr where
  ident : Vector UInt8 16
  type : UInt16
  machine : UInt16
  version : UInt32
  entry : UInt32
  phoff : UInt32
  shoff : UInt32
  flags : UInt32
  ehsize : UInt16
  phentsize : UInt16
  phnum : UInt16
  shentsize : UInt16
  shnum : UInt16
  shstrndx : UInt16

/-- `Elf32_Shdr`. -/
structure Elf32Shdr where
  name : UInt32
  type : UInt32
  flags : UInt32
  addr : UInt32
  offset : UInt32
  size : UInt32
  link : UInt32
  info : UInt32
  addralign : UInt32
  entsize : UInt32
  deriving DecidableEq

/-- `Elf32_Sym`. -/
structure Elf32Sym where
  name : UInt32
  value : UInt32
  size : UInt32
  info : UInt8
  other : UInt8
  shndx : UInt16

/-- `Elf32_Rel`. -/
structure Elf32Rel where
  offset : UInt32
  info : UInt32

namespace Elf32Ehdr

def codec : Codec Elf32Ehdr :=
  ((Codec.bytes 16).pair <| Codec.u16.pair <| Codec.u16.pair <| Codec.u32.pair <| Codec.u32.pair <|
    Codec.u32.pair <| Codec.u32.pair <| Codec.u32.pair <| Codec.u16.pair <| Codec.u16.pair <|
    Codec.u16.pair <| Codec.u16.pair <| Codec.u16.pair Codec.u16).map
    (fun (ident, type, machine, version, entry, phoff, shoff, flags, ehsize, phentsize, phnum,
        shentsize, shnum, shstrndx) =>
      { ident, type, machine, version, entry, phoff, shoff, flags, ehsize, phentsize, phnum,
        shentsize, shnum, shstrndx })
    (fun e => (e.ident, e.type, e.machine, e.version, e.entry, e.phoff, e.shoff, e.flags, e.ehsize,
      e.phentsize, e.phnum, e.shentsize, e.shnum, e.shstrndx))
    fun _ => rfl

end Elf32Ehdr

namespace Elf32Shdr

def codec : Codec Elf32Shdr :=
  (Codec.u32.pair <| Codec.u32.pair <| Codec.u32.pair <| Codec.u32.pair <| Codec.u32.pair <|
    Codec.u32.pair <| Codec.u32.pair <| Codec.u32.pair <| Codec.u32.pair Codec.u32).map
    (fun (name, type, flags, addr, offset, size, link, info, addralign, entsize) =>
      { name, type, flags, addr, offset, size, link, info, addralign, entsize })
    (fun s => (s.name, s.type, s.flags, s.addr, s.offset, s.size, s.link, s.info, s.addralign,
      s.entsize))
    fun _ => rfl

end Elf32Shdr

namespace Elf32Sym

def codec : Codec Elf32Sym :=
  (Codec.u32.pair <| Codec.u32.pair <| Codec.u32.pair <| Codec.u8.pair <|
    Codec.u8.pair Codec.u16).map
    (fun (name, value, size, info, other, shndx) => { name, value, size, info, other, shndx })
    (fun s => (s.name, s.value, s.size, s.info, s.other, s.shndx))
    fun _ => rfl

end Elf32Sym

namespace Elf32Rel

def codec : Codec Elf32Rel :=
  (Codec.u32.pair Codec.u32).map (fun (offset, info) => { offset, info })
    (fun r => (r.offset, r.info))
    fun _ => rfl

/-- `ELF32_R_SYM`. -/
def sym (r : Elf32Rel) : UInt32 := r.info >>> 8

/-- `ELF32_R_TYPE`. -/
def type (r : Elf32Rel) : UInt32 := r.info &&& 0xFF

end Elf32Rel

/-! ### Constants -/

abbrev etRel : UInt16 := 1
abbrev emArm : UInt16 := 40

abbrev shtSymtab : UInt32 := 2
abbrev shtNobits : UInt32 := 8
abbrev shtRel : UInt32 := 9

abbrev shfWrite : UInt32 := 1
abbrev shfAlloc : UInt32 := 2
abbrev shfExecinstr : UInt32 := 4

abbrev shnUndef : UInt16 := 0
abbrev shnAbs : UInt16 := 0xFFF1

abbrev sttFunc : UInt8 := 2

abbrev rArmNone : UInt32 := 0
abbrev rArmAbs32 : UInt32 := 2
abbrev rArmRel32 : UInt32 := 3
abbrev rArmThmCall : UInt32 := 10
abbrev rArmAbs16 : UInt32 := 16
abbrev rArmAbs8 : UInt32 := 17
abbrev rArmGotBrel : UInt32 := 26
abbrev rArmThmJump24 : UInt32 := 30
abbrev rArmTarget1 : UInt32 := 38
abbrev rArmPrel31 : UInt32 := 42
abbrev rArmThmMovwAbsNc : UInt32 := 47
abbrev rArmThmMovtAbs : UInt32 := 48

/-- `RPC_APP_MAGIC`. -/
abbrev rpcAppMagic : UInt32 := 0x52504341

/-- `LOADER_MAX_SECTIONS`. -/
abbrev loaderMaxSections : UInt16 := 128

/-- `REL_CHUNK`: symbols and relocations are read this many at a time. -/
abbrev relChunk : UInt32 := 256

/-- `APP_BLOCK_ALIGN`. -/
abbrev appBlockAlign : UInt32 := 32

/-- `VENEER_BYTES`. -/
abbrev veneerBytes : UInt32 := 16

/-- `PIC_PAGE`. -/
abbrev picPage : UInt32 := 4096

/-! ### Sections -/

namespace Elf32Shdr

/-- The section takes memory at run time. -/
def placed (s : Elf32Shdr) : Bool := s.flags &&& shfAlloc ≠ 0 && s.size ≠ 0

/-- The section belongs to the RAM half. -/
def writable (s : Elf32Shdr) : Bool := s.flags &&& shfWrite ≠ 0

/-- The alignment that the layout uses: at least four, and four when none is stated. -/
def align (s : Elf32Shdr) : UInt32 :=
  let al := if s.addralign ≠ 0 then s.addralign else 4
  if al < 4 then 4 else al

/-- How many relocations a section of type `SHT_REL` holds. -/
def relCount (s : Elf32Shdr) : UInt32 := s.size / 8

end Elf32Shdr

/-! ### Reading the object -/

/-- `names_ok`. -/
def namesOk (src : AppSource) (eh : Elf32Ehdr) (sh : List Elf32Shdr) : Bool :=
  match sh[eh.shstrndx.toNat]? with
  | none => false
  | some shstr => src.size = 0 || shstr.size ≤ src.size

/-- `section_name`, of a name table that a NUL ends. -/
def sectionName (names : List UInt8) (idx : UInt32) : List UInt8 := cstr (names.drop idx.toNat)

/-- The section table. -/
def readSections (src : AppSource) (eh : Elf32Ehdr) : Option (List Elf32Shdr) :=
  (readExact src eh.shoff (eh.shnum.toUInt32 * 40)).map fun bytes =>
    (List.range eh.shnum.toNat).map fun i => Elf32Shdr.codec.decode (bytes.drop (40 * i))

/-- `sym_at`: the symbol at `idx`, through the window it is read in. -/
def symAt (src : AppSource) (symtab : Elf32Shdr) (idx : UInt32) : Option Elf32Sym :=
  let nsyms := symtab.size / 16
  if idx ≥ nsyms then none
  else
    let base := idx - idx % relChunk
    let cnt := if nsyms - base < relChunk then nsyms - base else relChunk
    (readExact src (symtab.offset + base * 16) (cnt * 16)).map fun bytes =>
      Elf32Sym.codec.decode (bytes.drop (16 * (idx - base).toNat))

/-- The relocation at `r` of a section, through the chunk it is read in. -/
def relAt (src : AppSource) (s : Elf32Shdr) (r : UInt32) : Option Elf32Rel :=
  let first := r - r % relChunk
  let have' := if s.relCount - first < relChunk then s.relCount - first else relChunk
  (readExact src (s.offset + first * 8) (have' * 8)).map fun bytes =>
    Elf32Rel.codec.decode (bytes.drop (8 * (r - first).toNat))

/-- The relocations of one section, in order, each applied by `f`. -/
def forRels {α : Type} (src : AppSource) (s : Elf32Shdr) (f : α → Elf32Rel → Except LoadResult α)
    (init : α) : Except LoadResult α :=
  (List.range s.relCount.toNat).foldlM (fun a r =>
    match relAt src s (.ofNat r) with
    | none => .error .read
    | some rel => f a rel) init

/-- `sym_name`: the 96-byte buffer after the name at `stName` was read into it.  What an earlier
name left behind `want` stays. -/
def symName (src : AppSource) (strtab : Elf32Shdr) (namebuf : List UInt8) (stName : UInt32) :
    List UInt8 :=
  if stName ≥ strtab.size then namebuf.set 0 0
  else
    let want := if strtab.size - stName > 95 then 95 else strtab.size - stName
    match readExact src (strtab.offset + stName) want with
    | none => (namebuf.set 0 0).set 95 0
    | some bytes => (bytes ++ namebuf.drop bytes.length).set 95 0

end RPCortex.Loader
