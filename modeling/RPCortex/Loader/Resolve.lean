import RPCortex.Loader.Elf
import RPCortex.Lib.Run

/-! The layout that `app_pic_install` derives from the section headers: the GOT, the blob with the
sections that are not written to, and the RAM block with those that are.  All of its sums are
computed in 32 bits. -/

namespace RPCortex.Loader

open Lib Slot

/-! ### The GOT -/

/-- The symbols below `nsyms` that the relocations of `s` reach through the GOT, added to those
already `seen`. -/
def seeGot (src : AppSource) (nsyms : UInt32) (seen : List UInt32) (s : Elf32Shdr) :
    Except LoadResult (List UInt32) :=
  if s.type ≠ shtRel then .ok seen
  else forRels src s (fun seen rel =>
    if rel.type ≠ rArmGotBrel then .ok seen
    else if rel.sym < nsyms ∧ rel.sym ∉ seen then .ok (rel.sym :: seen)
    else .ok seen) seen

/-- The bytes that the GOT reserves: a word for each distinct symbol. -/
def gotBytesOf (src : AppSource) (nsyms : UInt32) (sh : List Elf32Shdr) :
    Except LoadResult UInt32 := do
  let seen ← sh.foldlM (seeGot src nsyms) []
  return alignUp (UInt32.ofNat seen.length * 4) 4

/-! ### The two halves -/

/-- Places the sections of one half after `pos`.  Returns the offset of each section, 0 for those
of the other half, and the position after the last one. -/
def place (half : Elf32Shdr → Bool) (pos : UInt32) : List Elf32Shdr → List UInt32 × UInt32
  | [] => ([], pos)
  | s :: rest =>
    if half s then
      let off := alignUp pos s.align
      let r := place half (off + s.size) rest
      (off :: r.1, r.2)
    else
      let r := place half pos rest
      (0 :: r.1, r.2)

/-- The sections of the blob. -/
def inBlob (s : Elf32Shdr) : Bool := s.placed && !s.writable

/-- The sections of the RAM block. -/
def inRam (s : Elf32Shdr) : Bool := s.placed && s.writable

/-- A section with its offsets in the two halves. -/
structure PicSection where
  hdr : Elf32Shdr
  blobOff : UInt32
  ramOff : UInt32
  deriving DecidableEq

/-- What the section headers determine. -/
structure PicLayout where
  sections : List PicSection
  bpos : UInt32
  rpos : UInt32
  gotBytes : UInt32
  deriving DecidableEq

/-- The layout loops, after a GOT of `gotBytes`. -/
def layOut (gotBytes : UInt32) (sh : List Elf32Shdr) : PicLayout :=
  let blob := place inBlob 0 sh
  let ram := place inRam gotBytes sh
  { sections := List.zipWith (fun s off => ⟨s, off.1, off.2⟩) sh (blob.1.zip ram.1)
    bpos := blob.2
    rpos := ram.2
    gotBytes := gotBytes }

namespace PicLayout

/-- `veneer_off`. -/
def veneerOff (l : PicLayout) : UInt32 := alignUp l.bpos 4

/-- `ram_size`. -/
def ramSize (l : PicLayout) : UInt32 := alignUp l.rpos appBlockAlign

/-- The section that the relocations of `s` patch, when it is in the given half. -/
def target (l : PicLayout) (half : Elf32Shdr → Bool) (s : PicSection) : Option PicSection :=
  if s.hdr.type ≠ shtRel then none
  else match l.sections[s.hdr.info.toNat]? with
    | none => none
    | some tgt => if half tgt.hdr then some tgt else none

/-- `text_size`, `rodata_off` and `rodata_size`. -/
def text (l : PicLayout) : UInt32 × UInt32 × UInt32 :=
  l.sections.foldl (fun (text, off, size) s =>
    if inBlob s.hdr then
      if s.hdr.flags &&& shfExecinstr ≠ 0 then (text + s.hdr.size, off, size)
      else (text, if size = 0 then s.blobOff else off, size + s.hdr.size)
    else (text, off, size)) (0, 0, 0)

/-- `reloc_count`. -/
def relocCount (l : PicLayout) : UInt32 :=
  l.sections.foldl (fun n s => if s.hdr.type = shtRel then n + s.hdr.relCount else n) 0

/-- `abs_cap`. -/
def absCap (l : PicLayout) : UInt32 :=
  l.sections.foldl (fun n s => if (l.target inRam s).isSome then n + s.hdr.relCount else n) 0

/-- `veneer_cap`, for a firmware that exports `symbolCount` symbols. -/
def veneerCap (l : PicLayout) (symbolCount : UInt32) : UInt32 :=
  let bound := l.relocCount
  let bound := if symbolCount ≠ 0 ∧ bound > symbolCount then symbolCount else bound
  (bound + 1) * veneerBytes

/-- One turn of the loop that measures the initialised sections of the RAM block. -/
def widen (extent : UInt32 × UInt32) (s : PicSection) : UInt32 × UInt32 :=
  if inRam s.hdr ∧ s.hdr.type ≠ shtNobits then
    (if s.ramOff < extent.1 then s.ramOff else extent.1,
      if s.ramOff + s.hdr.size > extent.2 then s.ramOff + s.hdr.size else extent.2)
  else extent

/-- `data_lo` and `data_hi`. -/
def dataExtent (l : PicLayout) : UInt32 × UInt32 :=
  let r := l.sections.foldl widen (0xFFFFFFFF, 0)
  if r.1 = 0xFFFFFFFF then (l.gotBytes, l.gotBytes) else r

/-- `data_off`. -/
def dataOff (l : PicLayout) : UInt32 := l.dataExtent.1

/-- `data_size`. -/
def dataSize (l : PicLayout) : UInt32 := l.dataExtent.2 - l.dataExtent.1

end PicLayout

end RPCortex.Loader

/-! What `app_pic_install` does with one relocation: where it may patch, what its symbol resolves
to, the veneer pool and the GOT recipe that resolution fills, and the Thumb branch encoding. -/

namespace RPCortex.Loader

open Lib Slot

/-- `PicClass`: the region that a resolved address is measured from. -/
inductive PicClass
  | slot | ram | abs
  deriving DecidableEq

/-- The byte that a recipe stores. -/
def PicClass.byte : PicClass → UInt8
  | .slot => 0
  | .ram => 1
  | .abs => 2

/-- A resolved symbol. -/
structure PicTarget where
  cls : PicClass
  value : UInt32
  isFunc : Bool
  deriving DecidableEq

/-- `PicMemo`, when it is valid. -/
structure PicMemo where
  idx : UInt32
  target : PicTarget

/-- The allocations of an install. -/
inductive PicBlock
  | names | seen | veneers | got | abs | dataInit
  deriving DecidableEq

/-- What an install calls: `api_symbol_count`, `api_index_of`, the allocator and the sink, with the
state that the sink keeps. -/
structure PicEnv (σ : Type) where
  symbolCount : UInt32
  indexOf : List UInt8 → Option UInt32
  alloc : PicBlock → UInt32 → Bool
  sink : σ → UInt32 → List UInt8 → Bool × σ

/-- What an install has read before its passes. -/
structure PicObject where
  src : AppSource
  symtab : Elf32Shdr
  strtab : Elf32Shdr
  layout : PicLayout
  deriving DecidableEq

/-- `nsyms`. -/
def PicObject.nsyms (o : PicObject) : UInt32 := o.symtab.size / 16

/-- What the passes change.  `veneers` lists the ABI indices of the pool, in order. -/
structure PicState (σ : Type) where
  namebuf : List UInt8
  memo : UInt8 → Option PicMemo
  veneers : List UInt32
  got : List PicGotEntry
  abs : List PicAbs32
  sink : σ

/-! ### Relocation sites -/

/-- `reloc_site_ok`. -/
def relocSiteOk (type off secSize : UInt32) : Bool :=
  if type ∈ [rArmAbs32, rArmTarget1, rArmRel32, rArmGotBrel, rArmPrel31] then
    off.toNat + 4 ≤ secSize.toNat
  else if type = rArmAbs16 then off &&& 1 = 0 && off.toNat + 2 ≤ secSize.toNat
  else if type = rArmAbs8 then off.toNat + 1 ≤ secSize.toNat
  else if type ∈ [rArmThmMovwAbsNc, rArmThmMovtAbs, rArmThmCall, rArmThmJump24] then
    off &&& 1 = 0 && off.toNat + 4 ≤ secSize.toNat
  else true

/-! ### Thumb branches -/

/-- `thumb_bl_in_range`. -/
def thumbBlInRange (disp : Int32) : Bool := -0x1000000 ≤ disp && disp < 0x1000000

/-- `thumb_encode_branch`. -/
def thumbEncodeBranch (p : UInt16 × UInt16) (disp : Int32) : UInt16 × UInt16 :=
  let d := disp.toUInt32
  let s : UInt32 := if disp < 0 then 1 else 0
  let i1 := (d >>> 23) &&& 1
  let i2 := (d >>> 22) &&& 1
  let imm10 := (d >>> 12) &&& 0x3FF
  let imm11 := (d >>> 1) &&& 0x7FF
  let j1 := (~~~i1 ^^^ s) &&& 1
  let j2 := (~~~i2 ^^^ s) &&& 1
  let hi := (p.1.toUInt32 &&& (0xF800 : UInt32)) ||| (s <<< 10) ||| imm10
  let lo := (p.2.toUInt32 &&& (0xD000 : UInt32)) ||| (j1 <<< 13) ||| (j2 <<< 11) ||| imm11
  (hi.toUInt16, lo.toUInt16)

/-- `thumb_decode_branch`. -/
def thumbDecodeBranch (p : UInt16 × UInt16) : Int32 :=
  let s := (p.1.toUInt32 >>> 10) &&& 1
  let imm10 := p.1.toUInt32 &&& 0x3FF
  let j1 := (p.2.toUInt32 >>> 13) &&& 1
  let j2 := (p.2.toUInt32 >>> 11) &&& 1
  let imm11 := p.2.toUInt32 &&& 0x7FF
  let i1 := ~~~(j1 ^^^ s) &&& 1
  let i2 := ~~~(j2 ^^^ s) &&& 1
  let v := (s <<< 24) ||| (i1 <<< 23) ||| (i2 <<< 22) ||| (imm10 <<< 12) ||| (imm11 <<< 1)
  (if s ≠ 0 then v ||| 0xFE000000 else v).toInt32

/-! ### The pool and the recipe -/

/-- The bytes of a veneer: a supervisor call, and the ABI index as its literal. -/
def veneer (index : UInt32) : List UInt8 :=
  [0xDF, 0xF8, 0x08, 0xC0, 0x00, 0xDF, 0xFE, 0xE7, 0x00, 0xBE, 0x00, 0x00] ++
    Codec.u32.encode index

/-- `veneer_used`. -/
def veneerUsed (veneers : List UInt32) : UInt32 := UInt32.ofNat veneers.length * veneerBytes

/-- `pic_veneer`: the offset of the veneer for `index` in the pool, and the pool with it. -/
def picVeneer (cap : UInt32) (veneers : List UInt32) (index : UInt32) :
    Option (UInt32 × List UInt32) :=
  match veneers.idxOf? index with
  | some k => some (UInt32.ofNat k * veneerBytes, veneers)
  | none =>
    if veneerUsed veneers + veneerBytes > cap then none
    else some (veneerUsed veneers, veneers ++ [index])

/-- The GOT entry for a target. -/
def PicTarget.gotEntry (t : PicTarget) : PicGotEntry :=
  ⟨t.value, t.cls.byte, if t.isFunc then 1 else 0⟩

/-- `got_slot`: the byte offset of the slot for `t`, and the recipe with it. -/
def gotSlot (cap : UInt32) (got : List PicGotEntry) (t : PicTarget) :
    Option (UInt32 × List PicGotEntry) :=
  match got.idxOf? t.gotEntry with
  | some k => some (UInt32.ofNat k * 4, got)
  | none =>
    if UInt32.ofNat got.length ≥ cap then none
    else some (UInt32.ofNat got.length * 4, got ++ [t.gotEntry])

/-! ### Symbols -/

variable {σ : Type}

/-- `resolve` without its memo. -/
def resolveSym (env : PicEnv σ) (o : PicObject) (st : PicState σ) (idx : UInt32) :
    Except LoadResult (PicTarget × PicState σ) :=
  match symAt o.src o.symtab idx with
  | none => .error .read
  | some s =>
    let isFunc := s.info &&& 0xF = sttFunc
    if s.shndx = shnUndef then
      let st := { st with namebuf := symName o.src o.strtab st.namebuf s.name }
      match env.indexOf (cstr st.namebuf) with
      | none => .error .undefSymbol
      | some ix => match picVeneer (o.layout.veneerCap env.symbolCount) st.veneers ix with
        | none => .error .relocRange
        | some (v, veneers) =>
          .ok (⟨.slot, (o.layout.veneerOff + v) ||| 1, true⟩, { st with veneers := veneers })
    else if s.shndx = shnAbs then .ok (⟨.abs, s.value, isFunc⟩, st)
    else match o.layout.sections[s.shndx.toNat]? with
      | none => .error .undefSymbol
      | some sec =>
        if !sec.hdr.placed then .error .undefSymbol
        else if sec.hdr.writable then .ok (⟨.ram, sec.ramOff + s.value, isFunc⟩, st)
        else .ok (⟨.slot, sec.blobOff + s.value, isFunc⟩, st)

/-- `resolve`: a symbol resolves once, for as long as the memo holds it. -/
def resolve (env : PicEnv σ) (o : PicObject) (st : PicState σ) (idx : UInt32) :
    Except LoadResult (PicTarget × PicState σ) :=
  let key := idx.toUInt8
  match st.memo key with
  | some m =>
    if m.idx = idx then .ok (m.target, st)
    else do
      let (t, st) ← resolveSym env o st idx
      return (t, { st with memo := upd st.memo key (some ⟨idx, t⟩) })
  | none => do
    let (t, st) ← resolveSym env o st idx
    return (t, { st with memo := upd st.memo key (some ⟨idx, t⟩) })

end RPCortex.Loader
