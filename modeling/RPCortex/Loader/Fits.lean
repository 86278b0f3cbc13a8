import RPCortex.Loader.Install

/-! `app_pic_load`: it allocates the RAM block of a package, copies the initialisers, builds the GOT
and applies the fix-ups.  A write that leaves the allocated block has no result. -/

namespace RPCortex.Loader

open Lib Slot

/-- A block of `n` bytes from the allocator. -/
structure HeapBlock (n : UInt32) where
  addr : UInt32
  bytes : List UInt8
  length_bytes : bytes.length = n.toNat
  inside : addr.toNat + n.toNat ≤ 2 ^ 32

/-- `bytes` with `new` at `off`, or nothing when it does not fit. -/
def writeBlock (bytes : List UInt8) (off : Nat) (new : List UInt8) : Option (List UInt8) :=
  if off + new.length ≤ bytes.length then some (splice bytes off new) else none

/-- What `app_pic_load` reports of the RAM half. -/
structure LoadedApp where
  image : UInt32
  textSize : UInt32
  data : UInt32
  dataSize : UInt32
  gotSize : UInt32
  gotCount : UInt32
  imageSize : UInt32
  entry : UInt32
  header : RpcAppHeader
  block : List UInt8

/-- The base address of a class, for a slot at `slot` and a RAM block at `data`. -/
def baseOf (slot data : UInt32) (cls : UInt8) : UInt32 :=
  if cls = PicClass.slot.byte then slot else if cls = PicClass.ram.byte then data else 0

/-- One word of the GOT, of a block whose RAM starts at `org`. -/
def writeGot (slot data : UInt32) (org : Nat) (block : List UInt8) (e : PicGotEntry × Nat) :
    Option (List UInt8) :=
  writeBlock block (org + 4 * e.2) (Codec.u32.encode (baseOf slot data e.1.cls + e.1.value))

/-- One fix-up. -/
def applyAbs (slot data : UInt32) (org : Nat) (block : List UInt8) (e : PicAbs32) :
    Option (List UInt8) :=
  let old := Codec.u32.decode (block.drop (org + e.site.toNat))
  writeBlock block (org + e.site.toNat)
    (Codec.u32.encode (old + (baseOf slot data e.cls + e.value)))

/-- The contents of the block after the initialisers, the GOT and the fix-ups. -/
def fillRam (slot data : UInt32) (m : PicRecipe) (org : Nat) (block : List UInt8) :
    Option (List UInt8) := do
  let block ← writeBlock block org (List.replicate m.ramSize.toNat 0)
  let block ← writeBlock block (org + m.dataOff.toNat) (m.dataInit.take m.dataSize.toNat)
  let block ← (m.got.take m.gotCount.toNat).zipIdx.foldlM (writeGot slot data org) block
  (m.abs.take m.absCount.toNat).foldlM (applyAbs slot data org) block

/-- `app_pic_load` of a package whose blob is at `slot`; `none` when a write left the block.
`gates` is whether the gate pool was allocated. -/
def appPicLoad (alloc : (n : UInt32) → Option (HeapBlock n)) (gates : Bool) (slot : UInt32)
    (m : PicRecipe) : Except LoadResult (Option LoadedApp) :=
  if m.apiMajor ≠ rpcApiMajor ∨ m.apiMinor > rpcApiMinor then .error .apiMismatch
  else if slot &&& (appBlockAlign - 1) ≠ 0 then .error .slotAlign
  else match alloc (m.ramSize + appBlockAlign) with
    | none => .error .oom
    | some raw =>
      let data := alignUp raw.addr appBlockAlign
      match fillRam slot data m (data - raw.addr).toNat raw.bytes with
      | none => .ok none
      | some block =>
        if !gates then .error .oom
        else .ok (some
          { image := slot
            textSize := alignUp m.roSize appBlockAlign
            data := data
            dataSize := m.ramSize
            gotSize := m.gotBytes
            gotCount := m.gotCount
            imageSize := m.roSize + m.ramSize
            entry := (slot + m.entryOff) ||| 1
            header := m.header
            block := block })

/-! ### What keeps the writes inside -/

/-- What `app_pic_load` needs of a manifest. -/
structure RamSafe (m : PicRecipe) : Prop where
  data : m.dataOff.toNat + m.dataSize.toNat ≤ m.ramSize.toNat
  got : m.gotBytes.toNat ≤ m.ramSize.toNat
  gotWords : 4 * m.got.length ≤ m.gotBytes.toNat
  sites : ∀ e ∈ m.abs, e.site.toNat + 4 ≤ m.ramSize.toNat

theorem length_splice {bytes new : List UInt8} {off : Nat} (h : off + new.length ≤ bytes.length) :
    (splice bytes off new).length = bytes.length := by
  unfold splice
  rw [List.length_append, List.length_append, List.length_take, List.length_drop]
  omega

theorem writeBlock_some (bytes new : List UInt8) (off : Nat) {n : Nat} (len : bytes.length = n)
    (h : off + new.length ≤ n) : ∃ b, writeBlock bytes off new = some b ∧ b.length = n := by
  rw [← len] at h
  exact ⟨splice bytes off new, if_pos h, (length_splice h).trans len⟩

/-- Nothing is written outside a block that holds the RAM from `org` on. -/
theorem RamSafe.fillRam {m : PicRecipe} (h : RamSafe m) (slot data : UInt32) {org : Nat}
    {block : List UInt8} (room : org + m.ramSize.toNat ≤ block.length) :
    ∃ b, fillRam slot data m org block = some b := by
  have hdata := h.data
  have hgot := h.got
  have hwords := h.gotWords
  have word : ∀ v : UInt32, (Codec.u32.encode v).length = 4 := Codec.u32.length_encode
  rcases writeBlock_some block (List.replicate m.ramSize.toNat 0) org rfl
    (by rw [List.length_replicate]; exact room) with ⟨b₁, hb₁, len₁⟩
  rcases writeBlock_some b₁ (m.dataInit.take m.dataSize.toNat) (org + m.dataOff.toNat) len₁
    (by rw [List.length_take]; omega) with ⟨b₂, hb₂, len₂⟩
  have got : ∃ b, (m.got.take m.gotCount.toNat).zipIdx.foldlM (writeGot slot data org) b₂ = some b ∧
      b.length = block.length := by
    refine foldlM_some (I := fun b : List UInt8 => b.length = block.length) len₂ ?_
    intro b len e he
    have index := List.snd_lt_of_mem_zipIdx he
    rw [List.length_take] at index
    apply writeBlock_some b _ _ len
    rw [word]
    omega
  rcases got with ⟨b₃, hb₃, len₃⟩
  have abs : ∃ b, (m.abs.take m.absCount.toNat).foldlM (applyAbs slot data org) b₃ = some b ∧
      b.length = block.length := by
    refine foldlM_some (I := fun b : List UInt8 => b.length = block.length) len₃ ?_
    intro b len e he
    have site := h.sites e (List.mem_of_mem_take he)
    apply writeBlock_some b _ _ len
    rw [word]
    omega
  rcases abs with ⟨b₄, hb₄, -⟩
  refine ⟨b₄, ?_⟩
  unfold Loader.fillRam
  simp only [hb₁, hb₂, hb₃, Option.bind_eq_bind, Option.bind_some]
  exact hb₄

/-- `app_pic_load` of a safe manifest stays inside the block that it allocates. -/
theorem RamSafe.load_inside {m : PicRecipe} (h : RamSafe m)
    (room : m.ramSize.toNat + 32 < 2 ^ 32) (alloc : (n : UInt32) → Option (HeapBlock n))
    (gates : Bool) (slot : UInt32) : appPicLoad alloc gates slot m ≠ .ok none := by
  unfold appPicLoad
  split
  · exact nofun
  split
  · exact nofun
  split
  · exact nofun
  rename_i raw _
  have size : (m.ramSize + appBlockAlign).toNat = m.ramSize.toNat + 32 := by
    rw [UInt32.toNat_add]
    exact Nat.mod_eq_of_lt room
  have inside := raw.inside
  have len := raw.length_bytes
  rw [size] at inside len
  have aligned : (alignUp raw.addr appBlockAlign).toNat = (raw.addr.toNat + 31) / 32 * 32 :=
    toNat_alignUp (k := 5) rfl (by omega)
  have org : (alignUp raw.addr appBlockAlign - raw.addr).toNat =
      (raw.addr.toNat + 31) / 32 * 32 - raw.addr.toNat := by
    rw [UInt32.toNat_sub_of_le _ _ (UInt32.le_iff_toNat_le.mpr (by omega)), aligned]
  have room : (alignUp raw.addr appBlockAlign - raw.addr).toNat + m.ramSize.toNat ≤
      raw.bytes.length := by omega
  rcases h.fillRam slot (alignUp raw.addr appBlockAlign) room with ⟨b, hb⟩
  dsimp only
  rw [hb]
  dsimp only
  split
  · exact nofun
  · exact nofun

end RPCortex.Loader

/-! When the RAM layout does not wrap.  `ramFits` lays the RAM half out without bound; where the end
stays below `2 ^ 32`, the offsets of `app_pic_install` are the unbounded ones and every section of
the half is inside the block. -/

namespace RPCortex.Loader

open Lib Slot

/-- The layout of the RAM half from `pos` on, without bound, and the block that `app_pic_load`
allocates for it stay below `2 ^ 32`. -/
def ramFits (pos : Nat) : List Elf32Shdr → Bool
  | [] => pos + 63 < 2 ^ 32
  | s :: rest =>
    if inRam s then
      pos + (s.align.toNat - 1) < 2 ^ 32 &&
        ramFits (roundUp pos s.align.toNat + s.size.toNat) rest
    else ramFits pos rest

theorem ramFits_le {pos : Nat} {sh : List Elf32Shdr} (h : ramFits pos sh = true) :
    pos + 63 < 2 ^ 32 := by
  induction sh generalizing pos with
  | nil => simpa [ramFits] using h
  | cons s sh ih =>
    unfold ramFits at h
    split at h
    · rw [Bool.and_eq_true] at h
      have := ih h.2
      have := le_roundUp pos s.align.toNat
      omega
    · exact ih h

theorem align_pos (s : Elf32Shdr) : 0 < s.align.toNat := by
  have four : (4 : UInt32).toNat = 4 := rfl
  unfold Elf32Shdr.align
  generalize (if s.addralign ≠ 0 then s.addralign else 4) = al
  dsimp only
  split
  · omega
  · rename_i le
    have le := UInt32.le_iff_toNat_le.mp (UInt32.not_lt.mp le)
    omega

@[simp] theorem length_place (half : Elf32Shdr → Bool) (pos : UInt32) (sh : List Elf32Shdr) :
    (place half pos sh).1.length = sh.length := by
  induction sh generalizing pos with
  | nil => rfl
  | cons s sh ih =>
    unfold place
    split
    · simp [ih]
    · simp [ih]

/-- A layout that fits is laid out without overlap: it ends where the unbounded one does, and every
section of the half is before the end. -/
theorem place_inRam {pos : UInt32} {sh : List Elf32Shdr} (h : ramFits pos.toNat sh = true) :
    pos.toNat ≤ (place inRam pos sh).2.toNat ∧ (place inRam pos sh).2.toNat + 63 < 2 ^ 32 ∧
      ∀ p ∈ sh.zip (place inRam pos sh).1, inRam p.1 = true →
        p.2.toNat + p.1.size.toNat ≤ (place inRam pos sh).2.toNat := by
  induction sh generalizing pos with
  | nil =>
    refine ⟨le_rfl, ramFits_le h, ?_⟩
    intro p hp
    cases hp
  | cons s sh ih =>
    unfold ramFits at h
    unfold place
    split
    · rename_i inside
      rw [if_pos inside, Bool.and_eq_true, decide_eq_true_eq] at h
      have off : (alignUp pos s.align).toNat = roundUp pos.toNat s.align.toNat :=
        toNat_alignUp_eq (align_pos s) h.1
      have room := ramFits_le h.2
      have next : (alignUp pos s.align + s.size).toNat =
          roundUp pos.toNat s.align.toNat + s.size.toNat := by
        rw [UInt32.toNat_add, off]
        omega
      rw [← next] at h
      rcases ih h.2 with ⟨start, fin, sections⟩
      have le := le_roundUp pos.toNat s.align.toNat
      refine ⟨by dsimp only; omega, fin, ?_⟩
      intro p hp hin
      rw [List.zip_cons_cons, List.mem_cons] at hp
      rcases hp with rfl | hp
      · dsimp only
        omega
      · exact sections p hp hin
    · rename_i outside
      rw [if_neg outside] at h
      rcases ih h with ⟨start, fin, sections⟩
      refine ⟨start, fin, ?_⟩
      intro p hp hin
      rw [List.zip_cons_cons, List.mem_cons] at hp
      rcases hp with rfl | hp
      · exact absurd hin outside
      · exact sections p hp hin

theorem mem_layOut {gotBytes : UInt32} {sh : List Elf32Shdr} {s : PicSection}
    (h : s ∈ (layOut gotBytes sh).sections) :
    (s.hdr, s.ramOff) ∈ sh.zip (place inRam gotBytes sh).1 := by
  rcases List.mem_iff_getElem.mp h with ⟨i, hi, rfl⟩
  simp only [layOut, List.length_zipWith, List.length_zip, length_place] at hi
  apply List.mem_iff_getElem.mpr
  refine ⟨i, ?_, ?_⟩
  · simp only [List.length_zip, length_place]
    omega
  · simp [layOut]

/-! ### The layout of an object that fits -/

/-- What the passes need of a layout. -/
structure PicLayout.Fits (l : PicLayout) : Prop where
  got : l.gotBytes.toNat ≤ l.rpos.toNat
  fin : l.rpos.toNat + 63 < 2 ^ 32
  sections : ∀ s ∈ l.sections, inRam s.hdr = true → s.ramOff.toNat + s.hdr.size.toNat ≤ l.rpos.toNat

theorem layOut_fits {gotBytes : UInt32} {sh : List Elf32Shdr}
    (h : ramFits gotBytes.toNat sh = true) : (layOut gotBytes sh).Fits := by
  rcases place_inRam h with ⟨start, fin, sections⟩
  exact ⟨start, fin, fun s hs hin => sections _ (mem_layOut hs) hin⟩

namespace PicLayout.Fits

variable {l : PicLayout}

theorem ramSize (h : l.Fits) : l.rpos.toNat ≤ l.ramSize.toNat ∧ l.ramSize.toNat + 32 < 2 ^ 32 := by
  have fin := h.fin
  have size : l.ramSize.toNat = (l.rpos.toNat + 31) / 32 * 32 :=
    toNat_alignUp (k := 5) rfl (by omega)
  omega

/-- The loop that measures the initialised sections stays inside the RAM half. -/
theorem widen (h : l.Fits) :
    (l.sections.foldl PicLayout.widen (0xFFFFFFFF, 0)).2.toNat ≤ l.rpos.toNat ∧
      ((l.sections.foldl PicLayout.widen (0xFFFFFFFF, 0)).1 = 0xFFFFFFFF ∨
        (l.sections.foldl PicLayout.widen (0xFFFFFFFF, 0)).1.toNat ≤
          (l.sections.foldl PicLayout.widen (0xFFFFFFFF, 0)).2.toNat) := by
  have fin := h.fin
  refine List.foldlRecOn (b := (0xFFFFFFFF, 0)) l.sections PicLayout.widen
    (motive := fun e => e.2.toNat ≤ l.rpos.toNat ∧ (e.1 = 0xFFFFFFFF ∨ e.1.toNat ≤ e.2.toNat))
    ⟨Nat.zero_le _, .inl rfl⟩ ?_
  rintro ⟨lo, hi⟩ ⟨inside, order⟩ s hs
  unfold PicLayout.widen
  split
  · rename_i initialised
    have room := h.sections s hs initialised.1
    have fin : (s.ramOff + s.hdr.size).toNat = s.ramOff.toNat + s.hdr.size.toNat := by
      rw [UInt32.toNat_add]
      omega
    have none : (0xFFFFFFFF : UInt32).toNat = 2 ^ 32 - 1 := rfl
    have low : (if s.ramOff < lo then s.ramOff else lo).toNat ≤ s.ramOff.toNat := by
      split
      · exact le_rfl
      · exact UInt32.le_iff_toNat_le.mp (UInt32.not_lt.mp ‹_›)
    have high : (s.ramOff + s.hdr.size).toNat ≤
        (if s.ramOff + s.hdr.size > hi then s.ramOff + s.hdr.size else hi).toNat := by
      split
      · exact le_rfl
      · exact UInt32.le_iff_toNat_le.mp (UInt32.not_lt.mp ‹_›)
    refine ⟨?_, .inr ?_⟩
    · dsimp only
      split
      · omega
      · exact inside
    · dsimp only
      omega
  · exact ⟨inside, order⟩

/-- The initialised part of the RAM half ends inside it. -/
theorem data (h : l.Fits) : l.dataOff.toNat + l.dataSize.toNat ≤ l.rpos.toNat := by
  have extent : l.dataExtent.1.toNat ≤ l.dataExtent.2.toNat ∧
      l.dataExtent.2.toNat ≤ l.rpos.toNat := by
    unfold dataExtent
    dsimp only
    split
    · exact ⟨le_rfl, h.got⟩
    · rename_i some
      exact ⟨h.widen.2.resolve_left some, h.widen.1⟩
  have size : l.dataSize.toNat = l.dataExtent.2.toNat - l.dataExtent.1.toNat :=
    UInt32.toNat_sub_of_le _ _ (UInt32.le_iff_toNat_le.mpr extent.1)
  have off : l.dataOff.toNat = l.dataExtent.1.toNat := rfl
  omega

end PicLayout.Fits

end RPCortex.Loader
