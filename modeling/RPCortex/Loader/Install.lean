import RPCortex.Loader.Resolve

/-! `app_pic_install`: it reads the object, emits the blob to a sink a page at a time and records in
a manifest what `app_pic_load` has to do to the RAM block. -/

namespace RPCortex.Loader

open Lib Slot

variable {σ : Type}

/-- `bytes` with `new` at `off`. -/
def splice (bytes : List UInt8) (off : Nat) (new : List UInt8) : List UInt8 :=
  bytes.take off ++ new ++ bytes.drop (off + new.length)

/-! ### Reading the object -/

/-- `".rpc_app_header"`. -/
def headerName : List UInt8 :=
  [0x2E, 0x72, 0x70, 0x63, 0x5F, 0x61, 0x70, 0x70, 0x5F, 0x68, 0x65, 0x61, 0x64, 0x65, 0x72]

/-- `"app_main"`. -/
def entryName : List UInt8 := [0x61, 0x70, 0x70, 0x5F, 0x6D, 0x61, 0x69, 0x6E]

/-- The package header, found by the name of its section. -/
def readHeader (env : PicEnv σ) (src : AppSource) (eh : Elf32Ehdr) (sh : List Elf32Shdr) :
    Except LoadResult RpcAppHeader :=
  if !namesOk src eh sh then .error .notElf
  else match sh[eh.shstrndx.toNat]? with
    | none => .error .notElf
    | some shstr =>
      if !env.alloc .names (shstr.size + 1) then .error .oom
      else match readExact src shstr.offset shstr.size with
        | none => .error .read
        | some names => match sh.find? fun s => sectionName names s.name = headerName with
          | none => .error .noHeader
          | some s => match readExact src s.offset 48 with
            | none => .error .read
            | some bytes =>
              let hdr := RpcAppHeader.codec.decode bytes
              if hdr.magic ≠ rpcAppMagic then .error .badMagic
              else if hdr.apiMajor ≠ rpcApiMajor ∨ hdr.apiMinor > rpcApiMinor then
                .error .apiMismatch
              else .ok hdr

/-- The ELF header, when it is one of a relocatable ARM object. -/
def readEhdr (src : AppSource) : Except LoadResult Elf32Ehdr :=
  match readExact src 0 52 with
  | none => .error .read
  | some bytes =>
    let eh := Elf32Ehdr.codec.decode bytes
    if eh.ident.toList.take 4 ≠ [0x7F, 0x45, 0x4C, 0x46] ∨ eh.ident[4] ≠ 1 then .error .notElf
    else if eh.type ≠ etRel then .error .notRel
    else if eh.machine ≠ emArm then .error .notArm
    else if eh.shnum > loaderMaxSections then .error .tooManySections
    else .ok eh

/-- The symbol table and its string table. -/
def readSymtab (sh : List Elf32Shdr) : Except LoadResult (Elf32Shdr × Elf32Shdr) :=
  match sh.find? fun s => s.type = shtSymtab with
  | none => .error .noEntry
  | some symtab => match sh[symtab.link.toNat]? with
    | none => .error .read
    | some strtab => .ok (symtab, strtab)

/-- `got_bytes`. -/
def readGot (env : PicEnv σ) (src : AppSource) (nsyms : UInt32) (sh : List Elf32Shdr) :
    Except LoadResult UInt32 :=
  if nsyms = 0 then .ok 0
  else if !env.alloc .seen ((nsyms + 7) / 8) then .error .oom
  else gotBytesOf src nsyms sh

/-- The part of `app_pic_install` before its passes. -/
def readObject (env : PicEnv σ) (src : AppSource) :
    Except LoadResult (RpcAppHeader × PicObject) := do
  let eh ← readEhdr src
  match readSections src eh with
  | none => throw .read
  | some sh =>
    let hdr ← readHeader env src eh sh
    let (symtab, strtab) ← readSymtab sh
    let gotBytes ← readGot env src (symtab.size / 16) sh
    return (hdr, { src, symtab, strtab, layout := layOut gotBytes sh })

/-! ### The page pass -/

/-- A page on its way to the sink. -/
structure PicPage (σ : Type) where
  st : PicState σ
  bytes : List UInt8
  patchedTo : UInt32
  emitEnd : UInt32

/-- The contents of `[pos, fin)` of the blob before relocation.  Gaps read as zero. -/
def fillPage (o : PicObject) (pos fin : UInt32) : Except LoadResult (List UInt8) :=
  o.layout.sections.foldlM (fun page s =>
    if !inBlob s.hdr ∨ s.hdr.type = shtNobits then .ok page
    else
      let s0 := s.blobOff
      let s1 := s.blobOff + s.hdr.size
      let lo := if s0 > pos then s0 else pos
      let hi := if s1 < fin then s1 else fin
      if lo ≥ hi then .ok page
      else match readExact o.src (s.hdr.offset + (lo - s0)) (hi - lo) with
        | none => .error .read
        | some bytes => .ok (splice page (lo - pos).toNat bytes))
    (List.replicate (fin - pos).toNat 0)

/-- The patch of the word at `site` in the page that starts at `pos`. -/
def patchSite (o : PicObject) (pos site type : UInt32) (t : PicTarget) (pg : PicPage σ) :
    Except LoadResult (PicPage σ) :=
  let k := (site - pos).toNat
  if type = rArmGotBrel then
    -- An addend cannot be expressed.
    if Codec.u32.decode (pg.bytes.drop k) ≠ 0 then .error .relocUnsupported
    else match gotSlot (o.layout.gotBytes / 4) pg.st.got t with
      | none => .error .relocRange
      | some (off, got) => .ok
        { pg with
          st := { pg.st with got := got }
          bytes := splice pg.bytes k (Codec.u32.encode off) }
  else if type = rArmThmCall ∨ type = rArmThmJump24 then
    if t.cls ≠ .slot then .error .relocRange
    else
      let p := (Codec.u16.decode (pg.bytes.drop k), Codec.u16.decode (pg.bytes.drop (k + 2)))
      let addend := thumbDecodeBranch p
      let disp := ((t.value &&& ~~~1) + addend.toUInt32 + 4 - (site + 4)).toInt32
      if !thumbBlInRange disp then .error .relocRange
      else
        let q := thumbEncodeBranch p disp
        .ok { pg with bytes := splice pg.bytes k (Codec.u16.encode q.1 ++ Codec.u16.encode q.2) }
  else .error .relocUnsupported

/-- One relocation of the page pass.  A site that straddles the end of the page stops the page short
of it. -/
def applyBlobRel (env : PicEnv σ) (o : PicObject) (pos fin : UInt32) (tgt : PicSection)
    (pg : PicPage σ) (rel : Elf32Rel) : Except LoadResult (PicPage σ) :=
  if rel.type = rArmNone then .ok pg
  else if !relocSiteOk rel.type rel.offset tgt.hdr.size then .error .relocRange
  else
    let site := tgt.blobOff + rel.offset
    if site < pos ∨ site ≥ fin then .ok pg
    else if site + 4 > fin then
      .ok { pg with emitEnd := if site < pg.emitEnd then site else pg.emitEnd }
    else do
      let (t, st) ← resolve env o pg.st rel.sym
      let patchedTo := if site + 4 > pg.patchedTo then site + 4 else pg.patchedTo
      patchSite o pos site rel.type t { pg with st := st, patchedTo := patchedTo }

/-- The relocations against the page `[pos, fin)`. -/
def patchPage (env : PicEnv σ) (o : PicObject) (pos fin : UInt32) (pg : PicPage σ) :
    Except LoadResult (PicPage σ) :=
  o.layout.sections.foldlM (fun pg s =>
    match o.layout.target inBlob s with
    | none => .ok pg
    | some tgt =>
      if tgt.blobOff ≥ fin ∨ tgt.blobOff + tgt.hdr.size ≤ pos then .ok pg
      else forRels o.src s.hdr (applyBlobRel env o pos fin tgt) pg) pg

/-- The page at `pos`, filled and patched. -/
def makePage (env : PicEnv σ) (o : PicObject) (st : PicState σ) (pos : UInt32) :
    Except LoadResult (PicPage σ) := do
  let fin := if pos + picPage > o.layout.veneerOff then o.layout.veneerOff else pos + picPage
  let bytes ← fillPage o pos fin
  patchPage env o pos fin { st, bytes, patchedTo := pos, emitEnd := fin }

/-- The page loop: read, patch, emit, forget. -/
def pagePass (env : PicEnv σ) (o : PicObject) (st : PicState σ) (pos : UInt32) :
    Except LoadResult (PicState σ) :=
  if pos < o.layout.veneerOff then
    match makePage env o st pos with
    | .error e => .error e
    | .ok pg =>
      if _ : pg.emitEnd ≤ pos then .error .relocUnsupported
      else if pg.patchedTo > pg.emitEnd then .error .relocUnsupported
      else match env.sink pg.st.sink pos (pg.bytes.take (pg.emitEnd - pos).toNat) with
        | (false, _) => .error .read
        | (true, sink) => pagePass env o { pg.st with sink := sink } pg.emitEnd
  else .ok st
termination_by 2 ^ 32 - pos.toNat
decreasing_by
  have forward : pos.toNat < pg.emitEnd.toNat := UInt32.lt_iff_toNat_lt.mp (UInt32.not_le.mp ‹_›)
  have := pg.emitEnd.toNat_lt
  omega

/-! ### The RAM half -/

/-- `data_init`. -/
def readData (o : PicObject) : Except LoadResult (List UInt8) :=
  o.layout.sections.foldlM (fun data s =>
    if !inRam s.hdr ∨ s.hdr.type = shtNobits then .ok data
    else match readExact o.src s.hdr.offset s.hdr.size with
      | none => .error .read
      | some bytes => .ok (splice data (s.ramOff - o.layout.dataOff).toNat bytes))
    (List.replicate o.layout.dataSize.toNat 0)

/-- One relocation of the pass over the RAM half. -/
def recordAbs (env : PicEnv σ) (o : PicObject) (tgt : PicSection) (st : PicState σ)
    (rel : Elf32Rel) : Except LoadResult (PicState σ) :=
  if rel.type = rArmNone then .ok st
  else if rel.type ≠ rArmAbs32 ∧ rel.type ≠ rArmTarget1 then .error .relocUnsupported
  else if !relocSiteOk rel.type rel.offset tgt.hdr.size then .error .relocRange
  else if UInt32.ofNat st.abs.length ≥ o.layout.absCap then .error .relocRange
  else do
    let (t, st) ← resolve env o st rel.sym
    return { st with abs := st.abs ++ [⟨tgt.ramOff + rel.offset, t.value, t.cls.byte⟩] }

/-- The pass that records the absolute sites of the RAM half. -/
def absPass (env : PicEnv σ) (o : PicObject) (st : PicState σ) : Except LoadResult (PicState σ) :=
  o.layout.sections.foldlM (fun st s =>
    match o.layout.target inRam s with
    | none => .ok st
    | some tgt => forRels o.src s.hdr (recordAbs env o tgt) st) st

/-! ### The entry point -/

/-- `entry_off`: the first symbol of the blob that is called `app_main`. -/
def findEntry (o : PicObject) (namebuf : List UInt8) : List Nat → Except LoadResult UInt32
  | [] => .error .noEntry
  | i :: rest =>
    match symAt o.src o.symtab (.ofNat i) with
    | none => .error .read
    | some s =>
      if s.shndx = shnUndef then findEntry o namebuf rest
      else match o.layout.sections[s.shndx.toNat]? with
        | none => findEntry o namebuf rest
        | some sec =>
          if !inBlob sec.hdr then findEntry o namebuf rest
          else
            let namebuf := symName o.src o.strtab namebuf s.name
            if cstr namebuf ≠ entryName then findEntry o namebuf rest
            else .ok (sec.blobOff + s.value)

/-! ### The install -/

/-- A manifest with the arrays that it owns. -/
structure PicRecipe extends PicManifest where
  got : List PicGotEntry
  abs : List PicAbs32
  dataInit : List UInt8

/-- What an install of this object records, after its passes. -/
def recipe (hdr : RpcAppHeader) (l : PicLayout) (st : PicState σ) (dataInit : List UInt8)
    (entryOff : UInt32) : PicRecipe where
  header := hdr
  apiMajor := hdr.apiMajor
  apiMinor := hdr.apiMinor
  roSize := l.veneerOff + veneerUsed st.veneers
  textSize := l.text.1
  rodataOff := l.text.2.1
  rodataSize := l.text.2.2
  veneerOff := l.veneerOff
  veneerSize := veneerUsed st.veneers
  entryOff := entryOff
  gotBytes := l.gotBytes
  dataOff := l.dataOff
  dataSize := l.dataSize
  ramSize := l.ramSize
  gotCount := .ofNat st.got.length
  absCount := .ofNat st.abs.length
  got := st.got
  abs := st.abs
  dataInit := dataInit

/-- The allocations before the passes: the veneer pool and the two recipe arrays. -/
def allocPools (env : PicEnv σ) (l : PicLayout) : Bool :=
  let gotCap := l.gotBytes / 4
  env.alloc .veneers (l.veneerCap env.symbolCount) &&
    env.alloc .got ((if gotCap ≠ 0 then gotCap else 1) * 8) &&
    env.alloc .abs ((if l.absCap ≠ 0 then l.absCap else 1) * 12)

/-- The end of `app_pic_install`.  The pool goes to the sink after both passes: the one over the RAM
half may still have added a veneer to it. -/
def finish (env : PicEnv σ) (hdr : RpcAppHeader) (o : PicObject) (dataInit : List UInt8)
    (st : PicState σ) : Except LoadResult (PicRecipe × σ) :=
  let sunk := if st.veneers = [] then (true, st.sink)
    else env.sink st.sink o.layout.veneerOff (st.veneers.flatMap veneer)
  if !sunk.1 then .error .read
  else do
    let entryOff ← findEntry o st.namebuf (List.range o.nsyms.toNat)
    return (recipe hdr o.layout st dataInit entryOff, sunk.2)

/-- The passes of `app_pic_install` over an object. -/
def installObject (env : PicEnv σ) (hdr : RpcAppHeader) (o : PicObject) (namebuf : List UInt8)
    (sink : σ) : Except LoadResult (PicRecipe × σ) :=
  if !allocPools env o.layout then .error .oom
  else do
    let st ← pagePass env o ⟨namebuf, fun _ => none, [], [], [], sink⟩ 0
    if !env.alloc .dataInit (if o.layout.dataSize ≠ 0 then o.layout.dataSize else 1) then
      .error .oom
    else do
      let dataInit ← readData o
      let st ← absPass env o st
      finish env hdr o dataInit st

/-- `app_pic_install` with a sink in state `sink`.  `namebuf` is what an earlier call left in the
name buffer. -/
def appPicInstall (env : PicEnv σ) (src : AppSource) (namebuf : List UInt8) (sink : σ) :
    Except LoadResult (PicRecipe × σ) := do
  let (hdr, o) ← readObject env src
  installObject env hdr o namebuf sink

end RPCortex.Loader
