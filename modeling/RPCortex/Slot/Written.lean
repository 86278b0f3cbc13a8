import RPCortex.Slot.Writer

/-! What the flash holds while the slot writer runs.  Whatever is refused, every cut after the first
operation finds the first program page erased; while nothing is refused, the body holds the whole
pages of what was appended and the checksum is theirs. -/

namespace RPCortex.Slot

open Lib

/-! ### Operations -/

theorem applyAll_append (f : Nat → UInt8) (ops ops' : List FlashOp) :
    applyAll f (ops ++ ops') = applyAll (applyAll f ops) ops' :=
  List.foldl_append

theorem applyAll_snoc (f : Nat → UInt8) (ops : List FlashOp) (op : FlashOp) :
    applyAll f (ops ++ [op]) = op.apply (applyAll f ops) :=
  applyAll_append f ops [op]

section

variable {f : Nat → UInt8} {off len : UInt32} {data : List UInt8} {i : Nat}

theorem erase_inside (h : off.toNat ≤ i) (h' : i < off.toNat + len.toNat) :
    (FlashOp.erase off len).apply f i = 0xFF :=
  if_pos ⟨h, h'⟩

theorem erase_outside (h : i < off.toNat ∨ off.toNat + len.toNat ≤ i) :
    (FlashOp.erase off len).apply f i = f i :=
  if_neg (by omega)

theorem program_outside (h : i < off.toNat ∨ off.toNat + data.length ≤ i) :
    (FlashOp.program off data).apply f i = f i :=
  if_neg (by omega)

/-- A program of erased flash stores its data. -/
theorem window_program (h : ∀ i, off.toNat ≤ i → i < off.toNat + data.length → f i = 0xFF) :
    window ((FlashOp.program off data).apply f) off.toNat data.length = data := by
  apply window_eq
  intro i hi
  have inside : off.toNat ≤ off.toNat + i ∧ off.toNat + i < off.toNat + data.length := by omega
  show (if _ then _ else _) = _
  rw [if_pos inside, h _ inside.1 inside.2, Nat.add_sub_cancel_left, List.getD_eq_getElem _ _ hi]
  exact UInt8.neg_one_and

end

/-! ### The slot an install is aimed at -/

/-- A slot that `pkgslot_begin` accepts, in the flash that an install finds.  The erase unit that
the slot leaves free in the address space keeps the writer's sums from wrapping. -/
structure Target where
  slotOff : UInt32
  slotBytes : UInt32
  old : Nat → UInt8
  aligned : slotBytes.toNat % 4096 = 0
  header : 4096 < slotBytes.toNat
  space : slotOff.toNat + slotBytes.toNat + 4096 < 2 ^ 32

/-- The slot as it is mapped after `ops`. -/
def Target.mapped (t : Target) (ops : List FlashOp) : Nat → UInt8 :=
  fun i => applyAll t.old ops (t.slotOff.toNat + i)

/-- Every cut of `ops` after the first operation finds the first program page erased. -/
def Quiet (t : Target) (ops : List FlashOp) : Prop :=
  ∀ pre, pre <+: ops → pre ≠ [] → ∀ i < 256, t.mapped pre i = 0xFF

variable {t : Target} {fl : SlotFlash} {w w' : PkgSlotWriter} {body bytes data : List UInt8}

/-- An operation that leaves the first program page alone keeps the cuts quiet. -/
theorem Quiet.snoc {ops : List FlashOp} {op : FlashOp} (h : Quiet t ops) (hne : ops ≠ [])
    (hop : ∀ i < 256, op.apply (applyAll t.old ops) (t.slotOff.toNat + i) = t.mapped ops i) :
    Quiet t (ops ++ [op]) := by
  intro pre hpre hpre_ne i hi
  rcases List.prefix_concat_iff.mp hpre with rfl | hpre
  · show applyAll _ _ _ = _
    rw [applyAll_snoc, hop i hi]
    exact h ops List.prefix_rfl hne i hi
  · exact h pre hpre hpre_ne i hi

/-- The outcome of a step of the writer: quiet in any case, and `P` when it succeeds. -/
def Ends (t : Target) (r : Bool × PkgSlotWriter) (P : PkgSlotWriter → Prop) : Prop :=
  Quiet t r.2.ops ∧ (r.1 = true → P r.2)

theorem Ends.mono {r : Bool × PkgSlotWriter} {P Q : PkgSlotWriter → Prop} (h : Ends t r P)
    (hPQ : ∀ w, Quiet t w.ops → P w → Q w) : Ends t r Q :=
  ⟨h.1, fun hr => hPQ _ h.1 (h.2 hr)⟩

theorem Ends.fail {P : PkgSlotWriter → Prop} (h : Quiet t w.ops) : Ends t (false, w) P :=
  ⟨h, fun hr => nomatch hr⟩

/-- The step that follows runs only on success. -/
theorem Ends.bind {r : Bool × PkgSlotWriter} {P Q : PkgSlotWriter → Prop}
    {g next : PkgSlotWriter → Bool × PkgSlotWriter} : Ends t r P →
    (∀ w, (g w).1 = false ∧ (g w).2.ops = w.ops) → (∀ w, P w → Ends t (next w) Q) →
    Ends t (match r with
      | (false, w) => g w
      | (true, w) => next w) Q := by
  intro h hg hnext
  rcases r with ⟨_ | _, w⟩
  · exact ⟨by rw [(hg w).2]; exact h.1, fun hr => by rw [(hg w).1] at hr; cases hr⟩
  · exact hnext w (h.2 rfl)

/-- What has been programmed: `body` is on flash, with its checksum, and what is erased after it is
still blank. -/
structure Programmed (t : Target) (w : PkgSlotWriter) (body : List UInt8) : Prop where
  slotOff : w.slotOff = t.slotOff
  slotBytes : w.slotBytes = t.slotBytes
  begun : w.ops ≠ []
  quiet : Quiet t w.ops
  pageBase : w.pageBase.toNat = body.length
  pages : body.length % 256 = 0
  sectors : w.erasedTo.toNat % 4096 = 0
  inside : 4096 + w.erasedTo.toNat ≤ t.slotBytes.toNat
  covered : body.length ≤ w.erasedTo.toNat
  header : ∀ i < 4096, t.mapped w.ops i = 0xFF
  contents : window (t.mapped w.ops) 4096 body.length = body
  blank : ∀ i, body.length ≤ i → i < w.erasedTo.toNat → t.mapped w.ops (4096 + i) = 0xFF
  crc : w.crc = pkgslotCrc32 0 body

namespace Programmed

/-- The page buffer and the cursor are not on flash. -/
theorem buffer (h : Programmed t w body) (page : List UInt8) (cursor : UInt32) :
    Programmed t { w with page := page, cursor := cursor } body :=
  ⟨h.slotOff, h.slotBytes, h.begun, h.quiet, h.pageBase, h.pages, h.sectors, h.inside, h.covered,
    h.header, h.contents, h.blank, h.crc⟩

/-- The address of a byte of the body. -/
theorem address (h : Programmed t w body) {off : UInt32}
    (hoff : 4096 + off.toNat ≤ t.slotBytes.toNat) :
    (w.slotOff + pkgslotHeader + off).toNat = t.slotOff.toNat + (4096 + off.toNat) := by
  have space := t.space
  have header : pkgslotHeader.toNat = 4096 := rfl
  rw [h.slotOff, UInt32.toNat_add, UInt32.toNat_add, header]
  omega

end Programmed

/-! ### Steps -/

theorem perform_eq (fl : SlotFlash) (w : PkgSlotWriter) (op : FlashOp) :
    w.perform fl op = (true, { w with ops := w.ops ++ [op] }) ∨ w.perform fl op = (false, w) := by
  unfold PkgSlotWriter.perform
  split
  · exact .inl rfl
  · exact .inr rfl

theorem mapped_snoc (ops : List FlashOp) (op : FlashOp) (i : Nat) :
    t.mapped (ops ++ [op]) i = op.apply (applyAll t.old ops) (t.slotOff.toNat + i) := by
  unfold Target.mapped
  rw [applyAll_snoc]

/-- An operation on the blank part of the body that only adds erased bytes there. -/
theorem Programmed.snoc (h : Programmed t w body) {op : FlashOp} {erasedTo : UInt32}
    (sectors : erasedTo.toNat % 4096 = 0) (inside : 4096 + erasedTo.toNat ≤ t.slotBytes.toNat)
    (more : w.erasedTo.toNat ≤ erasedTo.toNat)
    (low : ∀ i < 4096 + body.length, t.mapped (w.ops ++ [op]) i = t.mapped w.ops i)
    (blank : ∀ i, body.length ≤ i → i < erasedTo.toNat →
      t.mapped (w.ops ++ [op]) (4096 + i) = 0xFF) :
    Programmed t { w with erasedTo := erasedTo, ops := w.ops ++ [op] } body where
  slotOff := h.slotOff
  slotBytes := h.slotBytes
  begun := by simp
  quiet := h.quiet.snoc h.begun fun i hi => by rw [← mapped_snoc, low i (by omega)]
  pageBase := h.pageBase
  pages := h.pages
  sectors := sectors
  inside := inside
  covered := by
    have := h.covered
    show body.length ≤ erasedTo.toNat
    omega
  header i hi := by rw [low i (by omega), h.header i hi]
  contents := by
    rw [window_congr fun i hi => low (4096 + i) (by omega)]
    exact h.contents
  blank := blank
  crc := h.crc

/-- `erase_to`: the body is erased up to `need`, which is at most a page past what is programmed. -/
theorem eraseTo_ends (h : Programmed t w body) {need : UInt32}
    (hneed : need.toNat ≤ body.length + 256) :
    Ends t (eraseTo fl w need) fun w' => Programmed t w' body ∧ need.toNat ≤ w'.erasedTo.toNat ∧
      w'.page = w.page ∧ w'.cursor = w.cursor ∧ w'.pageBase = w.pageBase := by
  have inside := h.inside
  have covered := h.covered
  have sectors := h.sectors
  have aligned := t.aligned
  have space := t.space
  unfold eraseTo
  split
  · exact ⟨h.quiet, fun _ => ⟨h, UInt32.le_iff_toNat_le.mp ‹_›, rfl, rfl, rfl⟩⟩
  rename_i beyond
  have beyond : w.erasedTo.toNat < need.toNat :=
    UInt32.lt_iff_toNat_lt.mp (UInt32.not_le.mp beyond)
  have want : (alignUp need pkgslotErase).toNat = (need.toNat + 4095) / 4096 * 4096 :=
    toNat_alignUp (k := 12) rfl (by omega)
  generalize alignUp need pkgslotErase = want' at want
  dsimp only
  split
  · exact Ends.fail h.quiet
  rename_i room
  have room : 4096 + want'.toNat ≤ t.slotBytes.toNat := by
    have := UInt32.le_iff_toNat_le.mp (UInt32.not_lt.mp room)
    have header : pkgslotHeader.toNat = 4096 := rfl
    rw [UInt32.toNat_add, h.slotBytes, header] at this
    omega
  have start := h.address inside
  have len : (want' - w.erasedTo).toNat = want'.toNat - w.erasedTo.toNat :=
    UInt32.toNat_sub_of_le _ _ (UInt32.le_iff_toNat_le.mpr (by omega))
  rcases perform_eq fl w (.erase (w.slotOff + pkgslotHeader + w.erasedTo) (want' - w.erasedTo))
    with hp | hp <;> rw [hp]
  · have after : Programmed t { w with erasedTo := want', ops := w.ops ++
        [.erase (w.slotOff + pkgslotHeader + w.erasedTo) (want' - w.erasedTo)] } body := by
      apply h.snoc (by omega) room (by omega)
      · intro i hi
        rw [mapped_snoc]
        exact erase_outside (.inl (by omega))
      · intro i hi hi'
        rw [mapped_snoc]
        by_cases old : i < w.erasedTo.toNat
        · rw [erase_outside (.inl (by omega))]
          exact h.blank i hi old
        · exact erase_inside (by omega) (by omega)
    refine ⟨after.quiet, fun _ => ⟨after, ?_, rfl, rfl, rfl⟩⟩
    show need.toNat ≤ want'.toNat
    omega
  · exact Ends.fail h.quiet

/-- The program of the next page, where the body is erased. -/
theorem Programmed.extend (h : Programmed t w body) {off pageBase : UInt32}
    (whole : data.length = 256) (room : body.length + 256 ≤ w.erasedTo.toNat)
    (hoff : off.toNat = t.slotOff.toNat + (4096 + body.length))
    (base : pageBase.toNat = body.length + 256) :
    Programmed t
      { w with
        crc := pkgslotCrc32 w.crc data
        pageBase := pageBase
        page := []
        ops := w.ops ++ [.program off data] } (body ++ data) := by
  have pages := h.pages
  have low : ∀ i < 4096 + body.length,
      t.mapped (w.ops ++ [.program off data]) i = t.mapped w.ops i := by
    intro i hi
    rw [mapped_snoc]
    exact program_outside (.inl (by omega))
  have stored : window (t.mapped (w.ops ++ [.program off data])) (4096 + body.length) data.length =
      data := by
    unfold Target.mapped
    rw [window_shift, ← hoff, applyAll_snoc]
    apply window_program
    intro i hi hi'
    have := h.blank (i - t.slotOff.toNat - 4096) (by omega) (by omega)
    unfold Target.mapped at this
    rwa [show t.slotOff.toNat + (4096 + (i - t.slotOff.toNat - 4096)) = i by omega] at this
  constructor
  case slotOff => exact h.slotOff
  case slotBytes => exact h.slotBytes
  case begun => simp
  case quiet => exact h.quiet.snoc h.begun fun i hi => by rw [← mapped_snoc, low i (by omega)]
  case pageBase => rw [List.length_append, whole, ← base]
  case pages => rw [List.length_append]; omega
  case sectors => exact h.sectors
  case inside => exact h.inside
  case covered => rw [List.length_append, whole]; exact room
  case header =>
    intro i hi
    rw [low i (by omega), h.header i hi]
  case contents =>
    rw [List.length_append, window_add, stored, window_congr fun i hi => low (4096 + i) (by omega),
      h.contents]
  case blank =>
    intro i hi hi'
    rw [List.length_append, whole] at hi
    rw [mapped_snoc, program_outside (.inr (by omega))]
    exact h.blank i (by omega) hi'
  case crc =>
    show pkgslotCrc32 w.crc data = _
    rw [h.crc, pkgslotCrc32_append]

/-- How much `flush_page` pads a buffer of `n` bytes. -/
def pagePad (n : Nat) : Nat := (n + 255) / 256 * 256 - n

/-- `flush_page`: the buffer is programmed as a whole page. -/
theorem flushPage_ends (h : Programmed t w body) (fill : w.page.length ≤ 256) :
    Ends t (flushPage fl w) fun w' =>
      Programmed t w' (body ++ (w.page ++ erased (pagePad w.page.length))) ∧ w'.page = [] ∧
        w'.cursor = w.cursor := by
  unfold flushPage
  split
  · rename_i empty
    rw [empty]
    exact ⟨h.quiet, fun _ => ⟨by simpa [pagePad, erased] using h, empty, rfl⟩⟩
  rename_i nonempty
  have pos : 0 < w.page.length := List.length_pos_iff.mpr nonempty
  have inside := h.inside
  have covered := h.covered
  have space := t.space
  have base := h.pageBase
  have len : (UInt32.ofNat w.page.length).toNat = w.page.length := by
    rw [UInt32.toNat_ofNat']
    omega
  have size : (alignUp (UInt32.ofNat w.page.length) pkgslotProg).toNat = 256 := by
    rw [toNat_alignUp (k := 8) rfl (by omega), len]
    omega
  generalize alignUp (UInt32.ofNat w.page.length) pkgslotProg = n at size
  have page_pad : pagePad w.page.length = n.toNat - w.page.length := by
    unfold pagePad
    omega
  rw [page_pad]
  dsimp only
  generalize hpadded : w.page ++ erased (n.toNat - w.page.length) = padded
  have length_padded : padded.length = 256 := by
    rw [← hpadded, List.length_append, length_erased]
    omega
  have end_eq : (w.pageBase + n).toNat = body.length + 256 := by
    rw [UInt32.toNat_add]
    omega
  refine Ends.bind (eraseTo_ends h end_eq.le) ?_ ?_
  · exact fun w => ⟨rfl, rfl⟩
  rintro w₁ ⟨h₁, reach, page, cursor, base₁⟩
  have inside₁ := h₁.inside
  rw [end_eq] at reach
  have start : (w₁.slotOff + pkgslotHeader + w₁.pageBase).toNat =
      t.slotOff.toNat + (4096 + body.length) := by
    rw [h₁.address (by rw [h₁.pageBase]; omega), h₁.pageBase]
  rcases perform_eq fl w₁ (.program (w₁.slotOff + pkgslotHeader + w₁.pageBase) padded) with hp | hp
    <;> rw [hp]
  · have next : (w₁.pageBase + n).toNat = body.length + 256 := by rw [base₁, end_eq]
    have after := h₁.extend length_padded (by omega) start next
    exact ⟨after.quiet, fun _ => ⟨after, rfl, cursor⟩⟩
  · exact Ends.fail h₁.quiet

/-! ### Appending -/

/-- What has been appended: the whole pages of `bytes` are programmed, the rest is in the buffer. -/
structure Streamed (t : Target) (w : PkgSlotWriter) (bytes : List UInt8) : Prop where
  programmed : Programmed t w (bytes.take w.pageBase.toNat)
  page : w.page = bytes.drop w.pageBase.toNat
  fill : bytes.length < w.pageBase.toNat + 256
  cursor : w.cursor.toNat = bytes.length

theorem Streamed.pageBase_le (h : Streamed t w bytes) : w.pageBase.toNat ≤ bytes.length := by
  have := h.programmed.pageBase
  rw [List.length_take] at this
  omega

/-- What is programmed, followed by the buffer, when that is less than a page. -/
theorem Programmed.streamed (h : Programmed t w body) (fill : w.page.length < 256)
    (cursor : w.cursor.toNat = body.length + w.page.length) : Streamed t w (body ++ w.page) where
  programmed := by rwa [h.pageBase, List.take_left]
  page := by rw [h.pageBase, List.drop_left]
  fill := by rw [h.pageBase, List.length_append]; omega
  cursor := by rw [cursor, List.length_append]

/-- `body_append`. -/
theorem bodyAppend_ends (h : Streamed t w bytes) :
    Ends t (bodyAppend fl w data) fun w' => Streamed t w' (bytes ++ data) := by
  induction hlen : data.length using Nat.strong_induction_on generalizing w bytes data with
  | _ len ih =>
  unfold bodyAppend
  split
  · rename_i empty
    rw [empty, List.append_nil]
    exact ⟨h.programmed.quiet, fun _ => h⟩
  rename_i nonempty
  have pos : 0 < data.length := List.length_pos_iff.mpr nonempty
  have base := h.pageBase_le
  have fill := h.fill
  have inside := h.programmed.inside
  have covered := h.programmed.covered
  have space := t.space
  have page : w.page.length = bytes.length - w.pageBase.toNat := by rw [h.page, List.length_drop]
  have prog : pkgslotProg.toNat = 256 := rfl
  have all : bytes.take w.pageBase.toNat ++
      (w.page ++ data.take (min data.length (256 - w.page.length))) =
      bytes ++ data.take (min data.length (256 - w.page.length)) := by
    rw [h.page, ← List.append_assoc, List.take_append_drop]
  rw [List.length_take, Nat.min_eq_left base] at covered
  rw [prog]
  dsimp only
  generalize hn : min data.length (256 - w.page.length) = n at all
  have progress : n ≠ 0 := by omega
  have taken : (data.take n).length = n := by
    rw [List.length_take]
    omega
  have cursor : (w.cursor + UInt32.ofNat n).toNat = bytes.length + n := by
    rw [UInt32.toNat_add, UInt32.toNat_ofNat', h.cursor]
    omega
  have shorter : (data.drop n).length < len := by
    rw [List.length_drop]
    omega
  have joined : bytes ++ data = bytes ++ data.take n ++ data.drop n := by
    rw [List.append_assoc, List.take_append_drop]
  rw [if_neg progress, joined]
  have buffered := h.programmed.buffer (w.page ++ data.take n) (w.cursor + UInt32.ofNat n)
  split
  · rename_i full
    have full : (w.page ++ data.take n).length = 256 := full
    refine Ends.bind (flushPage_ends buffered full.le) ?_ ?_
    · exact fun w => ⟨rfl, rfl⟩
    rintro w₁ ⟨h₁, empty, cursor₁⟩
    rw [full, show erased (pagePad 256) = [] from rfl, List.append_nil, all] at h₁
    refine ih _ shorter ?_ rfl
    have := h₁.streamed (by rw [empty]; decide) (by
      rw [cursor₁, empty, List.length_append, taken]
      exact cursor)
    rwa [empty, List.append_nil] at this
  · rename_i partial'
    refine ih _ shorter ?_ rfl
    have count : (w.page ++ data.take n).length = w.page.length + n := by
      rw [List.length_append, taken]
    have short : (w.page ++ data.take n).length < 256 := by
      have : (w.page ++ data.take n).length ≠ 256 := partial'
      omega
    have := buffered.streamed short (by
      rw [List.length_take, Nat.min_eq_left base, count, page]
      show (w.cursor + UInt32.ofNat n).toNat = _
      omega)
    rwa [all] at this

theorem Streamed.length_le (h : Streamed t w bytes) : bytes.length + 3840 < t.slotBytes.toNat := by
  have inside := h.programmed.inside
  have covered := h.programmed.covered
  have base := h.pageBase_le
  have fill := h.fill
  rw [List.length_take, Nat.min_eq_left base] at covered
  omega

/-- How much is padded after `n` bytes to reach a word boundary. -/
def wordPad (n : Nat) : Nat := (n + 3) / 4 * 4 - n

theorem Streamed.toNat_alignUp (h : Streamed t w bytes) :
    (alignUp w.cursor 4).toNat = bytes.length + wordPad bytes.length := by
  have := h.length_le
  have space := t.space
  have cursor := h.cursor
  rw [Lib.toNat_alignUp (k := 2) rfl (by omega), cursor]
  unfold wordPad
  omega

/-- `body_pad_to`, to the next word boundary. -/
theorem bodyPadTo_ends (h : Streamed t w bytes) :
    Ends t (bodyPadTo fl w (alignUp w.cursor 4)) fun w' =>
      Streamed t w' (bytes ++ erased (wordPad bytes.length)) := by
  have cursor := h.cursor
  have dst := h.toNat_alignUp
  unfold bodyPadTo
  split
  · rename_i lt
    have lt : w.cursor.toNat < (alignUp w.cursor 4).toNat := UInt32.lt_iff_toNat_lt.mp lt
    have pad : (alignUp w.cursor 4 - w.cursor).toNat = wordPad bytes.length := by
      rw [UInt32.toNat_sub_of_le _ _ (UInt32.le_iff_toNat_le.mpr lt.le)]
      omega
    rw [pad]
    exact bodyAppend_ends h
  · rename_i le
    have le : (alignUp w.cursor 4).toNat ≤ w.cursor.toNat :=
      UInt32.le_iff_toNat_le.mp (UInt32.not_lt.mp le)
    have none : wordPad bytes.length = 0 := by omega
    refine ⟨h.programmed.quiet, fun _ => ?_⟩
    rw [none, show erased 0 = [] from rfl, List.append_nil]
    exact h

theorem appendArray_ends (h : Streamed t w bytes) :
    Ends t (appendArray fl w data) fun w' =>
      Streamed t w' (bytes ++ erased (wordPad bytes.length) ++ data) := by
  refine Ends.bind (bodyPadTo_ends h) ?_ ?_
  · exact fun w => ⟨rfl, rfl⟩
  · intro w₁ h₁
    exact bodyAppend_ends h₁

end RPCortex.Slot
