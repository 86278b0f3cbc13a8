import RPCortex.Slot.Moved

/-! The flash discipline of the slot writer.  Whatever the flash refuses, each program is a whole number of pages
inside the slot, on bytes that an erase of this install has covered and no program since. -/

namespace RPCortex.Slot

open Lib

/-! ### What has been erased -/

/-- Whether byte `i` is erased after an operation, when it was before or not. -/
def FlashOp.marks (i : Nat) (fresh : Bool) : FlashOp → Bool
  | .erase off len => fresh || (off.toNat ≤ i && i < off.toNat + len.toNat)
  | .program off data => fresh && !(off.toNat ≤ i && i < off.toNat + data.length)

/-- An operation has erased byte `i`, and none has programmed it since. -/
def fresh (ops : List FlashOp) (i : Nat) : Bool := ops.foldl (fun fresh op => op.marks i fresh) false

/-- The bytes lie inside the slot. -/
def InSlot (slotOff slotBytes off : UInt32) (len : Nat) : Prop :=
  slotOff.toNat ≤ off.toNat ∧ off.toNat + len ≤ slotOff.toNat + slotBytes.toNat

/-- An operation that keeps the discipline, after those `before` it. -/
def Proper (slotOff slotBytes : UInt32) (before : List FlashOp) : FlashOp → Prop
  | .erase off len => off.toNat % pkgslotErase.toNat = 0 ∧ len.toNat % pkgslotErase.toNat = 0 ∧
      InSlot slotOff slotBytes off len.toNat
  | .program off data => off.toNat % pkgslotProg.toNat = 0 ∧ data.length % pkgslotProg.toNat = 0 ∧
      InSlot slotOff slotBytes off data.length ∧
      ∀ i, off.toNat ≤ i → i < off.toNat + data.length → fresh before i = true

/-- Every operation keeps the discipline at its time. -/
def Disciplined (slotOff slotBytes : UInt32) (ops : List FlashOp) : Prop :=
  ∀ before op, before ++ [op] <+: ops → Proper slotOff slotBytes before op

theorem fresh_snoc (ops : List FlashOp) (op : FlashOp) (i : Nat) :
    fresh (ops ++ [op]) i = op.marks i (fresh ops i) := by
  rw [fresh, List.foldl_append]
  rfl

section

variable {slotOff slotBytes : UInt32} {ops : List FlashOp} {op : FlashOp}

theorem Disciplined.nil : Disciplined slotOff slotBytes [] := by
  intro before op pre
  have none_ := List.prefix_nil.mp pre
  simp at none_

theorem Disciplined.snoc (h : Disciplined slotOff slotBytes ops) (proper : Proper slotOff slotBytes ops op) :
    Disciplined slotOff slotBytes (ops ++ [op]) := by
  intro before op' pre
  rcases List.prefix_concat_iff.mp pre with same | pre
  · obtain ⟨rfl, last⟩ := List.append_inj' same rfl
    obtain rfl := List.singleton_inj.mp last
    exact proper
  · exact h before op' pre

end

/-! ### The invariant of the writer -/

/-- A slot that `pkgslot_begin` accepts, and in which no sum of the writer wraps. -/
structure Place where
  slotOff : UInt32
  slotBytes : UInt32
  offset : slotOff.toNat % 4096 = 0
  size : slotBytes.toNat % 4096 = 0
  header : 4096 < slotBytes.toNat
  space : slotOff.toNat + slotBytes.toNat ≤ 2 ^ 32
  below : slotBytes.toNat + 4096 < 2 ^ 32

/-- The discipline was kept, and what is erased beyond the pages that are programmed is still so. -/
structure Lined (p : Place) (w : PkgSlotWriter) : Prop where
  slotOff : w.slotOff = p.slotOff
  slotBytes : w.slotBytes = p.slotBytes
  pages : w.pageBase.toNat % 256 = 0
  sectors : w.erasedTo.toNat % 4096 = 0
  covered : w.pageBase.toNat ≤ w.erasedTo.toNat
  inside : 4096 + w.erasedTo.toNat ≤ p.slotBytes.toNat
  disciplined : Disciplined p.slotOff p.slotBytes w.ops
  header : ∀ i < 4096, fresh w.ops (p.slotOff.toNat + i) = true
  blank : ∀ i, w.pageBase.toNat ≤ i → i < w.erasedTo.toNat → fresh w.ops (p.slotOff.toNat + (4096 + i)) = true

variable {p : Place} {fl : SlotFlash} {fw : Firmware} {w : PkgSlotWriter} {data : List UInt8}

theorem Lined.address (h : Lined p w) {off : UInt32} (less : 4096 + off.toNat < p.slotBytes.toNat) :
    (w.slotOff + pkgslotHeader + off).toNat = p.slotOff.toNat + (4096 + off.toNat) := by
  have space := p.space
  have header : pkgslotHeader.toNat = 4096 := rfl
  rw [h.slotOff, UInt32.toNat_add, UInt32.toNat_add, header]
  omega

/-- `erase_to` reaches `need`, which is at most a page beyond what is programmed. -/
theorem eraseTo_lined (h : Lined p w) {need : UInt32} (next : need.toNat ≤ w.pageBase.toNat + 256) :
    Lined p (eraseTo fl w need).2 ∧ (eraseTo fl w need).2.pageBase = w.pageBase ∧
      ((eraseTo fl w need).1 = true → need.toNat ≤ (eraseTo fl w need).2.erasedTo.toNat) := by
  have inside := h.inside
  have covered := h.covered
  have sectors := h.sectors
  have size := p.size
  have below := p.below
  have erase : pkgslotErase.toNat = 4096 := rfl
  unfold eraseTo
  split
  · rename_i le
    exact ⟨h, rfl, fun _ => UInt32.le_iff_toNat_le.mp le⟩
  rename_i beyond
  have beyond : w.erasedTo.toNat < need.toNat := UInt32.lt_iff_toNat_lt.mp (UInt32.not_le.mp beyond)
  have want : (alignUp need pkgslotErase).toNat = (need.toNat + 4095) / 4096 * 4096 :=
    toNat_alignUp (k := 12) rfl (by omega)
  generalize alignUp need pkgslotErase = want' at want
  dsimp only
  split
  · exact ⟨h, rfl, fun no => (by cases no)⟩
  rename_i room
  have room : 4096 + want'.toNat ≤ p.slotBytes.toNat := by
    have le := UInt32.le_iff_toNat_le.mp (UInt32.not_lt.mp room)
    have header : pkgslotHeader.toNat = 4096 := rfl
    rw [UInt32.toNat_add, h.slotBytes, header] at le
    omega
  have start := h.address (show 4096 + w.erasedTo.toNat < _ by omega)
  have len : (want' - w.erasedTo).toNat = want'.toNat - w.erasedTo.toNat :=
    UInt32.toNat_sub_of_le _ _ (UInt32.le_iff_toNat_le.mpr (by omega))
  rcases perform_eq fl w (.erase (w.slotOff + pkgslotHeader + w.erasedTo) (want' - w.erasedTo)) with hp | hp <;>
    rw [hp]
  rotate_left
  · exact ⟨h, rfl, fun no => (by cases no)⟩
  have proper : Proper p.slotOff p.slotBytes w.ops
      (.erase (w.slotOff + pkgslotHeader + w.erasedTo) (want' - w.erasedTo)) := by
    have offset := p.offset
    refine ⟨?_, ?_, ?_, ?_⟩
    · rw [start, erase]; omega
    · rw [len, erase]; omega
    · rw [start]; omega
    · rw [start, len]; omega
  refine ⟨⟨h.slotOff, h.slotBytes, h.pages, ?_, ?_, room, h.disciplined.snoc proper, ?_, ?_⟩, rfl, fun _ => ?_⟩
  · show want'.toNat % 4096 = 0
    omega
  · show w.pageBase.toNat ≤ want'.toNat
    omega
  · intro i hi
    rw [fresh_snoc, FlashOp.marks, h.header i hi, Bool.true_or]
  · intro i hi hi'
    have hi' : i < want'.toNat := hi'
    rw [fresh_snoc, FlashOp.marks]
    by_cases old : i < w.erasedTo.toNat
    · rw [h.blank i hi old, Bool.true_or]
    · rw [Bool.or_eq_true, Bool.and_eq_true, decide_eq_true_iff, decide_eq_true_iff, start, len]
      omega
  · show need.toNat ≤ want'.toNat
    omega

/-- `flush_page` programs the next page. -/
theorem flushPage_lined (h : Lined p w) (fill : w.page.length ≤ 256) :
    Lined p (flushPage fl w).2 ∧ ((flushPage fl w).1 = true → (flushPage fl w).2.page = []) := by
  unfold flushPage
  split
  · rename_i empty
    exact ⟨h, fun _ => empty⟩
  rename_i nonempty
  have pos : 0 < w.page.length := List.length_pos_iff.mpr nonempty
  have inside := h.inside
  have covered := h.covered
  have pages := h.pages
  have below := p.below
  have len : (UInt32.ofNat w.page.length).toNat = w.page.length := by
    rw [UInt32.toNat_ofNat']
    omega
  have size : (alignUp (UInt32.ofNat w.page.length) pkgslotProg).toNat = 256 := by
    rw [toNat_alignUp (k := 8) rfl (by omega), len]
    omega
  generalize alignUp (UInt32.ofNat w.page.length) pkgslotProg = n at size
  dsimp only
  generalize hpadded : w.page ++ erased (n.toNat - w.page.length) = padded
  have length_padded : padded.length = 256 := by
    rw [← hpadded, List.length_append, length_erased]
    omega
  have end_eq : (w.pageBase + n).toNat = w.pageBase.toNat + 256 := by
    rw [UInt32.toNat_add]
    omega
  obtain ⟨h₁, base, reach⟩ := @eraseTo_lined p fl w h (w.pageBase + n) end_eq.le
  rcases hr : eraseTo fl w (w.pageBase + n) with ⟨_ | _, w₁⟩ <;> rw [hr] at h₁ base reach
  · exact ⟨h₁, fun no => (by cases no)⟩
  have reach := reach rfl
  dsimp only at h₁ base reach ⊢
  have inside₁ := h₁.inside
  have start := h₁.address (show 4096 + w₁.pageBase.toNat < _ by rw [base]; omega)
  rcases perform_eq fl w₁ (.program (w₁.slotOff + pkgslotHeader + w₁.pageBase) padded) with hp | hp <;> rw [hp]
  rotate_left
  · exact ⟨h₁, fun no => (by cases no)⟩
  have prog : pkgslotProg.toNat = 256 := rfl
  have proper : Proper p.slotOff p.slotBytes w₁.ops
      (.program (w₁.slotOff + pkgslotHeader + w₁.pageBase) padded) := by
    have offset := p.offset
    refine ⟨?_, ?_, ⟨?_, ?_⟩, ?_⟩
    · rw [start, prog, base]; omega
    · rw [length_padded, prog]
    · rw [start]; omega
    · rw [start, length_padded, base]; omega
    · intro i hi hi'
      rw [start, base] at hi hi'
      rw [length_padded] at hi'
      have blank := h₁.blank (i - p.slotOff.toNat - 4096) (by rw [base]; omega) (by omega)
      rwa [show p.slotOff.toNat + (4096 + (i - p.slotOff.toNat - 4096)) = i by omega] at blank
  have beyond (i : Nat) (far : i < p.slotOff.toNat + (4096 + w₁.pageBase.toNat) ∨
      p.slotOff.toNat + (4096 + w₁.pageBase.toNat) + 256 ≤ i) :
      fresh (w₁.ops ++ [.program (w₁.slotOff + pkgslotHeader + w₁.pageBase) padded]) i = fresh w₁.ops i := by
    rw [fresh_snoc, FlashOp.marks, start, length_padded]
    have no : (decide (p.slotOff.toNat + (4096 + w₁.pageBase.toNat) ≤ i) &&
        decide (i < p.slotOff.toNat + (4096 + w₁.pageBase.toNat) + 256)) = false := by
      rw [Bool.and_eq_false_iff, decide_eq_false_iff_not, decide_eq_false_iff_not]
      omega
    rw [no, Bool.not_false, Bool.and_true]
  have next : (w₁.pageBase + n).toNat = w₁.pageBase.toNat + 256 := by rw [base, end_eq]
  refine ⟨⟨h₁.slotOff, h₁.slotBytes, ?_, h₁.sectors, ?_, h₁.inside, h₁.disciplined.snoc proper, ?_, ?_⟩, fun _ => rfl⟩
  · show (w₁.pageBase + n).toNat % 256 = 0
    have := h₁.pages
    omega
  · show (w₁.pageBase + n).toNat ≤ w₁.erasedTo.toNat
    rw [next, base]
    omega
  · intro i hi
    exact (beyond _ (.inl (by omega))).trans (h₁.header i hi)
  · intro i hi hi'
    have hi : (w₁.pageBase + n).toNat ≤ i := hi
    exact (beyond _ (.inr (by omega))).trans (h₁.blank i (by omega) hi')

/-- `body_append` leaves a page that is not full. -/
theorem bodyAppend_lined (h : Lined p w) (fill : w.page.length < 256) :
    Lined p (bodyAppend fl w data).2 ∧
      ((bodyAppend fl w data).1 = true → (bodyAppend fl w data).2.page.length < 256) := by
  induction hlen : data.length using Nat.strong_induction_on generalizing w data with
  | _ len ih =>
  unfold bodyAppend
  split
  · exact ⟨h, fun _ => fill⟩
  rename_i nonempty
  have pos : 0 < data.length := List.length_pos_iff.mpr nonempty
  have prog : pkgslotProg.toNat = 256 := rfl
  rw [prog]
  dsimp only
  generalize hn : min data.length (256 - w.page.length) = n
  have progress : n ≠ 0 := by omega
  have shorter : (data.drop n).length < len := by
    rw [List.length_drop]
    omega
  have count : (w.page ++ data.take n).length = w.page.length + n := by
    rw [List.length_append, List.length_take]
    omega
  have buffered : Lined p { w with page := w.page ++ data.take n, cursor := w.cursor + UInt32.ofNat n } :=
    ⟨h.slotOff, h.slotBytes, h.pages, h.sectors, h.covered, h.inside, h.disciplined, h.header, h.blank⟩
  rw [if_neg progress]
  split
  · obtain ⟨h₁, empty⟩ := @flushPage_lined p fl _ buffered (show (w.page ++ data.take n).length ≤ 256 by omega)
    rcases hr : flushPage fl { w with page := w.page ++ data.take n, cursor := w.cursor + UInt32.ofNat n } with
      ⟨_ | _, w₁⟩ <;> rw [hr] at h₁ empty
    · exact ⟨h₁, fun no => (by cases no)⟩
    · exact ih _ shorter h₁ (by rw [empty rfl]; decide) rfl
  · rename_i partial'
    refine ih _ shorter buffered ?_ rfl
    have partial' : (w.page ++ data.take n).length ≠ 256 := partial'
    show (w.page ++ data.take n).length < 256
    omega

theorem bodyPadTo_lined (h : Lined p w) (fill : w.page.length < 256) (dst : UInt32) :
    Lined p (bodyPadTo fl w dst).2 ∧ ((bodyPadTo fl w dst).1 = true → (bodyPadTo fl w dst).2.page.length < 256) := by
  unfold bodyPadTo
  split
  · exact bodyAppend_lined h fill
  · exact ⟨h, fun _ => fill⟩

theorem appendArray_lined (h : Lined p w) (fill : w.page.length < 256) :
    Lined p (appendArray fl w data).2 ∧
      ((appendArray fl w data).1 = true → (appendArray fl w data).2.page.length < 256) := by
  unfold appendArray
  obtain ⟨h₁, fill₁⟩ := @bodyPadTo_lined p fl w h fill (alignUp w.cursor 4)
  rcases hr : bodyPadTo fl w (alignUp w.cursor 4) with ⟨_ | _, w₁⟩ <;> rw [hr] at h₁ fill₁
  · exact ⟨h₁, fun no => (by cases no)⟩
  · exact bodyAppend_lined h₁ (fill₁ rfl)

theorem Lined.fail (h : Lined p w) : Lined p w.fail :=
  ⟨h.slotOff, h.slotBytes, h.pages, h.sectors, h.covered, h.inside, h.disciplined, h.header, h.blank⟩

/-- A writer between two calls: a page that is full has failed. -/
def Ready (p : Place) (w : PkgSlotWriter) : Prop := Lined p w ∧ (w.failed = false → w.page.length < 256)

theorem Ready.pkgslotSink (h : Ready p w) (off : UInt32) (data : List UInt8) :
    Ready p (pkgslotSink fl w off data).2 := by
  unfold Slot.pkgslotSink
  split
  · exact h
  rename_i running
  have running : w.failed = false := by simpa using running
  split
  · exact ⟨h.1.fail, fun no => (by cases no)⟩
  split
  · exact ⟨h.1.fail, fun no => (by cases no)⟩
  obtain ⟨h₁, fill⟩ := @bodyAppend_lined p fl w data h.1 (h.2 running)
  rcases hr : bodyAppend fl w data with ⟨_ | _, w₁⟩ <;> rw [hr] at h₁ fill
  · exact ⟨h₁.fail, fun no => (by cases no)⟩
  · exact ⟨h₁, fun _ => fill rfl⟩

theorem Ready.calls (h : Ready p w) (calls : List (UInt32 × List UInt8)) :
    Ready p (calls.foldl (fun w call => (Slot.pkgslotSink fl w call.1 call.2).2) w) := by
  induction calls generalizing w with
  | nil => exact h
  | cons call calls ih =>
    rw [List.foldl_cons]
    exact ih (h.pkgslotSink call.1 call.2)

theorem ready_begunWriter (p : Place) : Ready p (begunWriter p.slotOff p.slotBytes) := by
  have sector : pkgslotHeader.toNat = 4096 := rfl
  have header := p.header
  have size := p.size
  refine ⟨⟨rfl, rfl, rfl, rfl, le_rfl, ?_, ?_, ?_, ?_⟩, fun _ => (show 0 < 256 by decide)⟩
  · show 4096 + 0 ≤ _
    omega
  · refine Disciplined.nil.snoc ⟨p.offset, by decide, le_rfl, ?_⟩
    rw [sector]
    omega
  · intro i hi
    show fresh ([] ++ [.erase p.slotOff pkgslotHeader]) _ = true
    rw [fresh_snoc, FlashOp.marks, Bool.or_eq_true, Bool.and_eq_true, decide_eq_true_iff, decide_eq_true_iff, sector]
    omega
  · intro i hi hi'
    exact absurd hi' (Nat.not_lt_zero i)

/-- The two programs of the header sector. -/
theorem writeHeader_disciplined (h : Lined p w) (m : PkgSlotMeta) :
    Disciplined p.slotOff p.slotBytes (writeHeader fl w m).2.ops := by
  have space := p.space
  have header := p.header
  have offset := p.offset
  have prog : pkgslotProg.toNat = 256 := rfl
  have metaOff : (w.slotOff + pkgslotMetaOff).toNat = p.slotOff.toNat + 256 := by
    have off : pkgslotMetaOff.toNat = 256 := rfl
    rw [h.slotOff, UInt32.toNat_add, off]
    omega
  unfold writeHeader
  rcases perform_eq fl w (.program (w.slotOff + pkgslotMetaOff) (metaPage m)) with hp | hp <;> rw [hp]
  rotate_left
  · exact h.disciplined
  have info : Proper p.slotOff p.slotBytes w.ops (.program (w.slotOff + pkgslotMetaOff) (metaPage m)) := by
    refine ⟨?_, by rw [length_metaPage, prog], ⟨?_, ?_⟩, ?_⟩
    · rw [metaOff, prog]; omega
    · rw [metaOff]; omega
    · rw [metaOff, length_metaPage]; omega
    · intro i hi hi'
      rw [metaOff] at hi hi'
      rw [length_metaPage] at hi'
      have blank := h.header (i - p.slotOff.toNat) (by omega)
      rwa [show p.slotOff.toNat + (i - p.slotOff.toNat) = i by omega] at blank
  have disciplined := h.disciplined.snoc info
  dsimp only
  generalize hops : w.ops ++ [.program (w.slotOff + pkgslotMetaOff) (metaPage m)] = ops at disciplined
  generalize hpage : commitPage _ = page
  have length_page : page.length = 256 := by rw [← hpage, length_commitPage]
  rcases perform_eq fl { w with ops := ops } (.program w.slotOff page) with hp | hp <;> rw [hp]
  rotate_left
  · exact disciplined
  refine disciplined.snoc ⟨?_, by rw [length_page, prog], ⟨?_, ?_⟩, ?_⟩
  · rw [h.slotOff, prog]; omega
  · rw [h.slotOff]
  · rw [h.slotOff, length_page]; omega
  · intro i hi hi'
    rw [h.slotOff] at hi hi'
    rw [length_page] at hi'
    have blank := h.header (i - p.slotOff.toNat) (by omega)
    rw [show p.slotOff.toNat + (i - p.slotOff.toNat) = i by omega] at blank
    rw [← hops, fresh_snoc, FlashOp.marks, blank, metaOff, Bool.true_and, Bool.not_eq_true', Bool.and_eq_false_iff,
      decide_eq_false_iff_not]
    exact .inl (by omega)

theorem pkgslotCommit_disciplined (h : Ready p w) (m : OwnedManifest) :
    Disciplined p.slotOff p.slotBytes (pkgslotCommit fl fw w m).2.ops := by
  unfold pkgslotCommit
  split
  · exact h.1.disciplined
  rename_i running
  split
  · exact h.1.disciplined
  obtain ⟨h₁, fill₁⟩ := @appendArray_lined p fl w (PicGotEntry.codec.encodeAll m.got) h.1
    (h.2 (by simpa using running))
  rcases hr : appendArray fl w (PicGotEntry.codec.encodeAll m.got) with ⟨_ | _, w₁⟩ <;> rw [hr] at h₁ fill₁
  · exact h₁.disciplined
  obtain ⟨h₂, fill₂⟩ := @appendArray_lined p fl w₁ (PicAbs32.codec.encodeAll m.abs) h₁ (fill₁ rfl)
  dsimp only
  rcases hr : appendArray fl w₁ (PicAbs32.codec.encodeAll m.abs) with ⟨_ | _, w₂⟩ <;> rw [hr] at h₂ fill₂
  · exact h₂.disciplined
  obtain ⟨h₃, fill₃⟩ := @appendArray_lined p fl w₂ m.dataInit h₂ (fill₂ rfl)
  dsimp only
  rcases hr : appendArray fl w₂ m.dataInit with ⟨_ | _, w₃⟩ <;> rw [hr] at h₃ fill₃
  · exact h₃.disciplined
  have h₄ := (@flushPage_lined p fl w₃ h₃ (fill₃ rfl).le).1
  dsimp only
  rcases hr : flushPage fl w₃ with ⟨_ | _, w₄⟩ <;> rw [hr] at h₄
  · exact h₄.disciplined
  dsimp only
  have last := @writeHeader_disciplined p fl w₄ h₄ (metaFor fw m.toPicManifest (alignUp w.cursor 4)
    (alignUp w₁.cursor 4) (alignUp w₂.cursor 4) w₄.pageBase)
  rcases hr : writeHeader fl w₄ (metaFor fw m.toPicManifest (alignUp w.cursor 4)
    (alignUp w₁.cursor 4) (alignUp w₂.cursor 4) w₄.pageBase) with ⟨_ | _, w₅⟩ <;> rw [hr] at last
  · exact last
  · exact last

/-! ### Installs -/

/-- The commit record and the metadata in the flash tell of the body in the flash: its checksum is that of the bytes
that are counted, and the offsets are those of the arrays. -/
structure Recorded (base : Nat → UInt8) (blob : List UInt8) (m : OwnedManifest) : Prop where
  crc : Crc.HasCrc32 (window base 4096 (commitOf base).bodyBytes.toNat) (commitOf base).bodyCrc
  arrays : Reports base (metaOf base).opened blob m

variable {slotOff slotBytes : UInt32}

theorem pkgslotBegin_true (begun : (pkgslotBegin fl slotOff slotBytes).1 = true) :
    slotOff.toNat % 4096 = 0 ∧ slotBytes.toNat % 4096 = 0 ∧ 4096 < slotBytes.toNat ∧
      pkgslotBegin fl slotOff slotBytes = (true, begunWriter slotOff slotBytes) := by
  rcases pkgslotBegin_cases fl slotOff slotBytes with ⟨failed, -⟩ | ⟨larger, aligned, same⟩
  · rw [failed] at begun
    cases begun
  refine ⟨?_, aligned, larger, same⟩
  unfold pkgslotBegin at begun
  dsimp only at begun
  split at begun
  · cases begun
  split at begun
  · cases begun
  rename_i plain
  push Not at plain
  have zero := congrArg UInt32.toNat plain.1
  rwa [UInt32.toNat_mod] at zero

theorem Disciplined.of_mem {ops : List FlashOp} {op : FlashOp} (h : Disciplined slotOff slotBytes ops)
    (mem : op ∈ ops) : ∃ before, Proper slotOff slotBytes before op := by
  obtain ⟨before, behind, rfl⟩ := List.append_of_mem mem
  exact ⟨before, h before op ⟨behind, by simp⟩⟩

/-- No sum wraps where an operation lies in its slot. -/
theorem Proper.plain {before : List FlashOp} {op : FlashOp}
    (proper : Proper slotOff slotBytes before (op.moved slotOff)) (off len : UInt32) (data : List UInt8)
    (shape : op = .erase off len ∨ op = .program off data) : slotOff.toNat + off.toNat < 2 ^ 32 := by
  have first : slotOff.toNat ≤ (slotOff + off).toNat := by
    rcases shape with rfl | rfl
    · exact proper.2.2.1
    · exact proper.2.2.1.1
  rw [UInt32.toNat_add] at first
  have := slotOff.toNat_lt
  have := off.toNat_lt
  omega

/-- An install keeps the discipline, and when its commit succeeds, what is recorded is what is in the flash.  Each flash
is meant, so that a call that one refuses is one that another performs at the same place. -/
theorem install_disciplined (fl : SlotFlash) (fw : Firmware) (slotOff slotBytes : UInt32)
    (calls : List (UInt32 × List UInt8)) (m : OwnedManifest) (old : Nat → UInt8)
    (begun : (pkgslotBegin fl slotOff slotBytes).1 = true) (space : slotOff.toNat + slotBytes.toNat ≤ 2 ^ 32)
    (below : slotBytes ≠ 0xFFFFF000) :
    Disciplined slotOff slotBytes (install fl fw slotOff slotBytes calls m).2.ops ∧
      ((install fl fw slotOff slotBytes calls m).1 = true →
        Recorded (fun i => applyAll old (install fl fw slotOff slotBytes calls m).2.ops (slotOff.toNat + i))
          (calls.flatMap Prod.snd) m) := by
  obtain ⟨offset, size, header, same⟩ := pkgslotBegin_true begun
  have less : slotBytes.toNat + 4096 < 2 ^ 32 := by
    have ne : slotBytes.toNat ≠ 0xFFFFF000 := fun eq => below (UInt32.toNat_inj.mp eq)
    have lt := slotBytes.toNat_lt
    omega
  let p : Place := ⟨slotOff, slotBytes, offset, size, header, space, less⟩
  have disciplined : Disciplined slotOff slotBytes (install fl fw slotOff slotBytes calls m).2.ops := by
    unfold install
    rw [same]
    exact pkgslotCommit_disciplined ((ready_begunWriter p).calls calls) m
  refine ⟨disciplined, fun done => ?_⟩
  let t : Target := ⟨0, slotBytes, fun i => old (slotOff.toNat + i), size, header, by
    show 0 + slotBytes.toNat + 4096 < 2 ^ 32
    omega⟩
  have streamed := streamed_begunWriter t
  have sunk : Sunk t (begunWriter 0 slotBytes) [] := ⟨streamed.programmed.quiet, fun _ => streamed⟩
  have settled := @pkgslotCommit_settled t (fl.from_ slotOff) fw _ _ (@Sunk.calls t (fl.from_ slotOff) _ _ sunk calls) m
  rw [install_moved calls m same] at disciplined done ⊢
  rcases settled with ⟨failed, -⟩ | ⟨-, fits, committed⟩
  · exact absurd (failed.symm.trans done) (by decide)
  have mapped : (fun i => applyAll old (movedStep slotOff (pkgslotCommit (fl.from_ slotOff) fw
      (calls.foldl (fun w call => (Slot.pkgslotSink (fl.from_ slotOff) w call.1 call.2).2) (begunWriter 0 slotBytes))
      m)).2.ops (slotOff.toNat + i)) = t.mapped (pkgslotCommit (fl.from_ slotOff) fw
      (calls.foldl (fun w call => (Slot.pkgslotSink (fl.from_ slotOff) w call.1 call.2).2) (begunWriter 0 slotBytes))
      m).2.ops := by
    funext i
    refine (applyAll_moved old (fun op mem => ?_) i).trans ?_
    · obtain ⟨before, proper⟩ := disciplined.of_mem (List.mem_map_of_mem mem)
      exact proper.plain
    · unfold Target.mapped
      rw [show t.slotOff.toNat + i = i from Nat.zero_add i]
  rw [mapped]
  have stored := committed.stored
  constructor
  · rw [hasCrc32_iff_pkgslotCrc32, stored.commitOf_eq]
    show pkgslotCrc32 0 (window _ 4096 (recorded fw _ m).bodyBytes.toNat) = pkgslotCrc32 0 _
    rw [stored.length, stored.contents]
  · rw [stored.metaOf_eq]
    exact stored.reports fits

/-- An install into a slot that begins at the last sector of the address space. -/
def lastInstall : Bool × PkgSlotWriter :=
  install (fun _ _ => true) anyFirmware 0xFFFFF000 8192 [(0, tinyBlob)] tinyManifest

theorem tinyInstall_eq : tinyInstall = pkgslotCommit (fun _ _ => true) anyFirmware tinyWriter tinyManifest := by
  have begun : pkgslotBegin (fun _ _ => true) 0 8192 = (true, begunWriter 0 8192) := rfl
  unfold tinyInstall install
  rw [begun]
  dsimp only
  rw [List.foldl_cons, List.foldl_nil, pkgslotSink, if_neg (by decide), if_neg (by decide), if_neg (by decide),
    bodyAppend_tinyBlob]

theorem tinyInstall_program : tinyInstall.2.ops[2]? = some (.program 4096 (tinyBlob ++ erased 252)) := by
  have none : appendArray (fun _ _ => true) tinyWriter [] = (true, tinyWriter) :=
    appendArray_nil _ (by decide)
  have arrays : PicGotEntry.codec.encodeAll tinyManifest.got = [] ∧
      PicAbs32.codec.encodeAll tinyManifest.abs = [] ∧ tinyManifest.dataInit = [] :=
    ⟨rfl, rfl, rfl⟩
  rw [tinyInstall_eq]
  unfold pkgslotCommit
  rw [if_neg (by decide), if_neg (by decide)]
  simp only [arrays, none]
  rfl

/-- Its first page goes to the first sector of the address space. -/
theorem lastInstall_outside : (pkgslotBegin (fun _ _ => true) 0xFFFFF000 8192).1 = true ∧
    ¬Disciplined 0xFFFFF000 8192 lastInstall.2.ops := by
  refine ⟨by decide, fun disciplined => ?_⟩
  have moved : lastInstall = movedStep 0xFFFFF000 tinyInstall := install_moved _ _ rfl
  rw [moved] at disciplined
  have mem := List.mem_map_of_mem (f := FlashOp.moved 0xFFFFF000) (List.mem_of_getElem? tinyInstall_program)
  obtain ⟨before, proper⟩ := disciplined.of_mem mem
  exact absurd proper.2.2.1.1 (by decide)

theorem install_disciplined_tiny : Disciplined 0 8192 tinyInstall.2.ops ∧
    Recorded tinyFlash tinyBlob tinyManifest := by
  obtain ⟨disciplined, recorded_⟩ := install_disciplined (fun _ _ => true) anyFirmware 0 8192 [(0, tinyBlob)]
    tinyManifest (fun _ => 0xFF) (by decide) (by decide) (by decide)
  exact ⟨disciplined, recorded_ tinyInstall_done⟩

end RPCortex.Slot
