import RPCortex.Loader.Counted

/-! The blob of a package as one image: the read-only sections laid out, and every relocation applied to the whole of
it, with the veneers and the GOT slots numbered as an install has numbered them.  No symbol is remembered here, and
nothing is cut into pages. -/

namespace RPCortex.Loader

open Lib Slot

variable {σ : Type}

/-! ### The image -/

/-- The name of a symbol, read into a clean buffer. -/
def nameOf (o : PicObject) (stName : UInt32) : List UInt8 :=
  cstr (symName o.src o.strtab (List.replicate 96 0) stName)

/-- What symbol `idx` resolves to when the pool is `veneers`. -/
def targetOf (env : PicEnv σ) (o : PicObject) (veneers : List UInt32) (idx : UInt32) : Option PicTarget :=
  match symAt o.src o.symtab idx with
  | none => none
  | some s =>
    let isFunc := s.info &&& 0xF = sttFunc
    if s.shndx = shnUndef then
      match env.indexOf (nameOf o s.name) with
      | none => none
      | some ix => (veneers.idxOf? ix).map fun k =>
        ⟨.slot, (o.layout.veneerOff + UInt32.ofNat k * veneerBytes) ||| 1, true⟩
    else if s.shndx = shnAbs then some ⟨.abs, s.value, isFunc⟩
    else match o.layout.sections[s.shndx.toNat]? with
      | none => none
      | some sec =>
        if !sec.hdr.placed then none
        else if sec.hdr.writable then some ⟨.ram, sec.ramOff + s.value, isFunc⟩
        else some ⟨.slot, sec.blobOff + s.value, isFunc⟩

/-- The four bytes at `k` of `bytes`, which are at `site` of the blob, patched for the target `t`. -/
def patchBytes (got : List PicGotEntry) (site type : UInt32) (t : PicTarget) (k : Nat) (bytes : List UInt8) :
    Option (List UInt8) :=
  if type = rArmGotBrel then
    if Codec.u32.decode (bytes.drop k) ≠ 0 then none
    else (got.idxOf? t.gotEntry).map fun n => splice bytes k (Codec.u32.encode (UInt32.ofNat n * 4))
  else if type = rArmThmCall ∨ type = rArmThmJump24 then
    if t.cls ≠ .slot then none
    else
      let p := (Codec.u16.decode (bytes.drop k), Codec.u16.decode (bytes.drop (k + 2)))
      let addend := thumbDecodeBranch p
      let disp := ((t.value &&& ~~~1) + addend.toUInt32 + 4 - (site + 4)).toInt32
      if !thumbBlInRange disp then none
      else
        let q := thumbEncodeBranch p disp
        some (splice bytes k (Codec.u16.encode q.1 ++ Codec.u16.encode q.2))
  else none

/-- The relocations of section `s` against one half of the package, each with the section that it patches. -/
def relsAgainst (o : PicObject) (half : Elf32Shdr → Bool) (s : PicSection) : List (PicSection × Elf32Rel) :=
  match o.layout.target half s with
  | none => []
  | some tgt => (relsOf o.src s.hdr).map (tgt, ·)

/-- The relocations against the blob, in the order of the object. -/
def blobRels (o : PicObject) : List (PicSection × Elf32Rel) := o.layout.sections.flatMap (relsAgainst o inBlob)

/-- Where a relocation patches the blob. -/
def siteOf (p : PicSection × Elf32Rel) : UInt32 := p.1.blobOff + p.2.offset

/-- The relocation patches a word of its section. -/
def patches (p : PicSection × Elf32Rel) : Bool :=
  p.2.type ≠ rArmNone && p.2.offset.toNat + 4 ≤ p.1.hdr.size.toNat

/-- One relocation applied to the whole image. -/
def patchRel (env : PicEnv σ) (o : PicObject) (veneers : List UInt32) (got : List PicGotEntry) (image : List UInt8)
    (p : PicSection × Elf32Rel) : Option (List UInt8) :=
  if patches p then
    (targetOf env o veneers p.2.sym).bind fun t => patchBytes got (siteOf p) p.2.type t (siteOf p).toNat image
  else some image

/-- A section of the blob put at its offset. -/
def laySection (o : PicObject) (image : List UInt8) (s : PicSection) : List UInt8 :=
  if !inBlob s.hdr ∨ s.hdr.type = shtNobits then image
  else splice image s.blobOff.toNat ((o.src.bytes.drop s.hdr.offset.toNat).take s.hdr.size.toNat)

/-- The sections of the blob at their offsets.  What no section fills is zero. -/
def layBlob (o : PicObject) : List UInt8 :=
  o.layout.sections.foldl (laySection o) (List.replicate o.layout.veneerOff.toNat 0)

/-- The blob without its veneers: the image with every relocation applied. -/
def wholeImage (env : PicEnv σ) (o : PicObject) (veneers : List UInt32) (got : List PicGotEntry) :
    Option (List UInt8) :=
  (blobRels o).foldlM (patchRel env o veneers got) (layBlob o)

/-! ### Numbers -/

/-- `l` with `x` behind it, where it is new. -/
def addNew {α : Type*} [DecidableEq α] (l : List α) (x : α) : List α := if x ∈ l then l else l ++ [x]

/-- The pool once symbol `idx` has a target: a firmware function that has no veneer gets the next one. -/
def numberSym (env : PicEnv σ) (o : PicObject) (veneers : List UInt32) (idx : UInt32) : List UInt32 :=
  match symAt o.src o.symtab idx with
  | none => veneers
  | some s =>
    if s.shndx = shnUndef then
      match env.indexOf (nameOf o s.name) with
      | none => veneers
      | some ix => addNew veneers ix
    else veneers

/-- The pool and the GOT once a relocation against the blob has what it needs of them. -/
def numberRel (env : PicEnv σ) (o : PicObject) (n : List UInt32 × List PicGotEntry) (p : PicSection × Elf32Rel) :
    List UInt32 × List PicGotEntry :=
  let veneers := numberSym env o n.1 p.2.sym
  (veneers,
    if p.2.type = rArmGotBrel then
      match targetOf env o veneers p.2.sym with
      | none => n.2
      | some t => addNew n.2 t.gotEntry
    else n.2)

/-- The relocations that patch words from `off` on, `len` bytes far, in the order of the object. -/
def relsIn (o : PicObject) (off len : Nat) : List (PicSection × Elf32Rel) :=
  (blobRels o).filter fun p => patches p && off ≤ (siteOf p).toNat && (siteOf p).toNat < off + len

/-- The pool and the GOT once a page has what it needs. -/
def numberPage (env : PicEnv σ) (o : PicObject) (n : List UInt32 × List PicGotEntry) (page : UInt32 × List UInt8) :
    List UInt32 × List PicGotEntry :=
  (relsIn o page.1.toNat page.2.length).foldl (numberRel env o) n

/-- The relocations against the RAM half that need a target, in the order of the object. -/
def ramRels (o : PicObject) : List (PicSection × Elf32Rel) :=
  (o.layout.sections.flatMap (relsAgainst o inRam)).filter fun p => p.2.type ≠ rArmNone

/-- The pool and the GOT of an install that emits these pages: numbered as the pages need them, one after the other, and
then as the RAM half does. -/
def numbering (env : PicEnv σ) (o : PicObject) (pages : List (UInt32 × List UInt8)) :
    List UInt32 × List PicGotEntry :=
  let n := pages.foldl (numberPage env o) ([], [])
  ((ramRels o).foldl (fun veneers p => numberSym env o veneers p.2.sym) n.1, n.2)

/-- The relocations of the blob patch words in the order of their offsets. -/
def Ascending (o : PicObject) : Prop :=
  ((blobRels o).filter patches).Pairwise fun p q => (siteOf p).toNat ≤ (siteOf q).toNat

/-- The pool and the GOT numbered in the order of the object. -/
def wholeNumbering (env : PicEnv σ) (o : PicObject) : List UInt32 × List PicGotEntry :=
  let n := ((blobRels o).filter patches).foldl (numberRel env o) ([], [])
  ((ramRels o).foldl (fun veneers p => numberSym env o veneers p.2.sym) n.1, n.2)

/-! ### Windows -/

section Windows

variable {bytes image new page : List UInt8} {off a n k i : Nat}

theorem getElem?_splice (inside : off ≤ bytes.length) : (splice bytes off new)[i]? =
    if i < off then bytes[i]? else if i < off + new.length then new[i - off]? else bytes[i]? := by
  have front : (bytes.take off).length = off := List.length_take_of_le inside
  unfold splice
  split
  · rename_i before
    rw [List.append_assoc, List.getElem?_append_left (by omega), List.getElem?_take, if_pos before]
  split
  · rw [List.append_assoc, List.getElem?_append_right (by omega), front, List.getElem?_append_left (by omega)]
  · rw [List.getElem?_append_right (by rw [List.length_append, front]; omega), List.length_append, front,
      List.getElem?_drop]
    congr 1
    omega

/-- The `n` bytes of an image from `a` on. -/
def stretch (image : List UInt8) (a n : Nat) : List UInt8 := (image.drop a).take n

theorem getElem?_stretch : (stretch image a n)[i]? = if i < n then image[a + i]? else none := by
  rw [stretch, List.getElem?_take, List.getElem?_drop]

theorem length_stretch (inside : a + n ≤ image.length) : (stretch image a n).length = n := by
  rw [stretch, List.length_take, List.length_drop]
  omega

/-- A splice outside of a stretch leaves it alone. -/
theorem stretch_splice_outside (inside : off + new.length ≤ image.length)
    (outside : off + new.length ≤ a ∨ a + n ≤ off) :
    stretch (splice image off new) a n = stretch image a n := by
  apply List.ext_getElem?
  intro i
  rw [getElem?_stretch, getElem?_stretch]
  split
  · rw [getElem?_splice (by omega)]
    split
    · rfl
    · rw [if_neg (by omega)]
  · rfl

/-- A splice inside a stretch is one of the stretch. -/
theorem stretch_splice_inside (size : a + n ≤ image.length) (after : a ≤ off) (before : off + new.length ≤ a + n) :
    stretch (splice image off new) a n = splice (stretch image a n) (off - a) new := by
  apply List.ext_getElem?
  intro i
  rw [getElem?_splice (by rw [length_stretch size]; omega), getElem?_stretch, getElem?_stretch,
    getElem?_splice (by omega)]
  by_cases low : i < off - a
  · rw [if_pos low, if_pos (show a + i < off by omega)]
  · rw [if_neg low, if_neg (show ¬a + i < off by omega)]
    by_cases mid : i < off - a + new.length
    · rw [if_pos mid, if_pos (show i < n by omega), if_pos (show a + i < off + new.length by omega)]
      congr 1
      omega
    · rw [if_neg mid, if_neg (show ¬a + i < off + new.length by omega)]

theorem stretch_append {m : Nat} : stretch image a n ++ stretch image (a + n) m = stretch image a (n + m) := by
  rw [stretch, stretch, stretch, ← List.drop_drop, List.take_add]

theorem stretch_take (le : k ≤ n) : (stretch image a n).take k = stretch image a k := by
  rw [stretch, stretch, List.take_take, Nat.min_eq_left le]

/-- What is decoded inside a stretch is what is decoded in the image. -/
theorem drop_stretch (inside : k + 4 ≤ n) : ((stretch image a n).drop k).take 4 = (image.drop (a + k)).take 4 := by
  rw [stretch, List.drop_take, List.take_take, List.drop_drop, Nat.min_eq_left (by omega)]

end Windows

/-! ### Patches -/

section Patches

variable {got got' : List PicGotEntry} {site type : UInt32} {t : PicTarget} {image image' : List UInt8} {off a n : Nat}

theorem u32_decode_take {x y : List UInt8} (same : x.take 4 = y.take 4) : Codec.u32.decode x = Codec.u32.decode y := by
  show UInt32.ofNat (leDecode (x.take 4)) = UInt32.ofNat (leDecode (y.take 4))
  rw [same]

theorem u16_decode_take {x y : List UInt8} (same : x.take 2 = y.take 2) : Codec.u16.decode x = Codec.u16.decode y := by
  show UInt16.ofNat (leDecode (x.take 2)) = UInt16.ofNat (leDecode (y.take 2))
  rw [same]

/-- A number that was given stays. -/
theorem idxOf?_grown {α : Type*} [DecidableEq α] {l l' : List α} {x : α} {k : Nat} (grown : l <+: l')
    (found : l.idxOf? x = some k) : l'.idxOf? x = some k := by
  obtain ⟨more, rfl⟩ := grown
  unfold List.idxOf? at found ⊢
  rw [List.findIdx?_append, found]
  rfl

theorem patchBytes_mono {k : Nat} (grown : got <+: got') (patched : patchBytes got site type t k image = some image') :
    patchBytes got' site type t k image = some image' := by
  unfold patchBytes at patched ⊢
  split
  · rename_i gotBrel
    rw [if_pos gotBrel] at patched
    split
    · rename_i addend
      rw [if_pos addend] at patched
      cases patched
    · rename_i addend
      rw [if_neg addend] at patched
      obtain ⟨k, found, rfl⟩ := Option.map_eq_some_iff.mp patched
      rw [idxOf?_grown grown found]
      rfl
  · rename_i gotBrel
    rw [if_neg gotBrel] at patched
    exact patched

/-- A patch writes four bytes. -/
theorem patchBytes_splice {k : Nat} (patched : patchBytes got site type t k image = some image') :
    ∃ new : List UInt8, new.length = 4 ∧ image' = splice image k new := by
  unfold patchBytes at patched
  split at patched
  · split at patched
    · cases patched
    · obtain ⟨n, -, rfl⟩ := Option.map_eq_some_iff.mp patched
      exact ⟨_, Codec.length_encode _ _, rfl⟩
  split at patched
  · split at patched
    · cases patched
    dsimp only at patched
    split at patched
    · cases patched
    · refine ⟨_, ?_, (Option.some.inj patched).symm⟩
      rw [List.length_append, Codec.length_encode, Codec.length_encode]
      rfl
  · cases patched

/-- A patch inside a stretch is one of the stretch. -/
theorem patchBytes_stretch (size : a + n ≤ image.length) (after : a ≤ off) (before : off + 4 ≤ a + n) :
    patchBytes got site type t (off - a) (stretch image a n) =
      (patchBytes got site type t off image).map fun image' => stretch image' a n := by
  have word : ((stretch image a n).drop (off - a)).take 4 = (image.drop off).take 4 := by
    rw [drop_stretch (by omega), Nat.add_sub_cancel' after]
  have first : ((stretch image a n).drop (off - a)).take 2 = (image.drop off).take 2 := by
    have cut := congrArg (List.take 2) word
    rwa [List.take_take, List.take_take] at cut
  have second : ((stretch image a n).drop (off - a + 2)).take 2 = (image.drop (off + 2)).take 2 := by
    have cut := congrArg (List.drop 2) word
    rwa [List.drop_take, List.drop_take, List.drop_drop, List.drop_drop] at cut
  have spliced (new : List UInt8) (four : new.length = 4) :
      splice (stretch image a n) (off - a) new = stretch (splice image off new) a n :=
    (stretch_splice_inside size after (by omega)).symm
  unfold patchBytes
  rw [u32_decode_take word, u16_decode_take first, u16_decode_take second]
  split
  · split
    · rfl
    · cases got.idxOf? t.gotEntry with
      | none => rfl
      | some k =>
        rw [Option.map_some, Option.map_some, Option.map_some, spliced _ (Codec.length_encode _ _)]
  split
  · split
    · rfl
    dsimp only
    split
    · rfl
    · rw [Option.map_some, spliced]
      rw [List.length_append, Codec.length_encode, Codec.length_encode]
      rfl
  · rfl

end Patches

end RPCortex.Loader
