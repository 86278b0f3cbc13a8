import RPCortex.Slot.Written

/-! Installs are crash-atomic.  However the flash refuses operations and wherever an install is cut
after its first operation, the slot opens only when the commit record was programmed, and it then
reports what was installed. -/

namespace RPCortex.Slot

open Lib

variable {t : Target} {fl : SlotFlash} {fw : Firmware} {w : PkgSlotWriter}
  {blob bytes body : List UInt8}

/-! ### Before the commit record -/

/-- An erased first program page holds no commit record. -/
theorem not_open_of_blank {base : Nat → UInt8} {slotBytes : UInt32} {o : BorrowedManifest}
    (h : ∀ i < 256, base i = 0xFF) : pkgslotOpen fw base slotBytes ≠ .ok o := by
  intro ho
  have magic := (pkgslotOpen_ok_iff.mp ho).1.magic
  have blank : window base 0 (erased 32).length = erased 32 := by
    apply window_eq
    intro i hi
    rw [length_erased] at hi
    rw [h (0 + i) (by omega), getElem_erased]
  have commit : commitOf base = PkgSlotCommit.codec.decode (erased 32) :=
    congrArg PkgSlotCommit.codec.decode blank
  rw [commit] at magic
  exact absurd magic (by decide)

/-- The writer that `pkgslot_begin` hands out. -/
def begunWriter (slotOff slotBytes : UInt32) : PkgSlotWriter :=
  ⟨slotOff, slotBytes, 0, 0, 0, 0, [], false, [.erase slotOff pkgslotHeader]⟩

theorem pkgslotBegin_cases (fl : SlotFlash) (slotOff slotBytes : UInt32) :
    ((pkgslotBegin fl slotOff slotBytes).1 = false ∧
      (pkgslotBegin fl slotOff slotBytes).2.ops = []) ∨
    (4096 < slotBytes.toNat ∧ slotBytes.toNat % 4096 = 0 ∧
      pkgslotBegin fl slotOff slotBytes = (true, begunWriter slotOff slotBytes)) := by
  unfold pkgslotBegin
  dsimp only
  split
  · exact .inl ⟨rfl, rfl⟩
  rename_i larger
  split
  · exact .inl ⟨rfl, rfl⟩
  rename_i aligned
  push Not at aligned
  rcases perform_eq fl ⟨slotOff, slotBytes, 0, 0, 0, 0, [], false, []⟩
    (.erase slotOff pkgslotHeader) with hp | hp <;> rw [hp]
  · refine .inr ⟨UInt32.lt_iff_toNat_lt.mp (UInt32.not_le.mp larger), ?_, rfl⟩
    have := congrArg UInt32.toNat aligned.2
    rwa [UInt32.toNat_mod] at this
  · exact .inl ⟨rfl, rfl⟩

theorem streamed_begunWriter (t : Target) : Streamed t (begunWriter t.slotOff t.slotBytes) [] := by
  have space := t.space
  have sector : pkgslotHeader.toNat = 4096 := rfl
  have header : ∀ i < 4096, t.mapped [.erase t.slotOff pkgslotHeader] i = 0xFF := by
    intro i hi
    apply erase_inside
    · omega
    · rw [sector]; omega
  have quiet : Quiet t [.erase t.slotOff pkgslotHeader] := by
    intro pre hpre hne i hi
    rcases List.prefix_cons_iff.mp hpre with rfl | ⟨tail, rfl, htail⟩
    · exact absurd rfl hne
    · rw [List.prefix_nil.mp htail]
      exact header i (by omega)
  have header' := t.header
  have programmed : Programmed t (begunWriter t.slotOff t.slotBytes) [] := by
    constructor
    case quiet => exact quiet
    case header => exact header
    case inside => show 4096 + 0 ≤ _; omega
    case blank => exact fun i _ hi => absurd hi (by simp [begunWriter])
    all_goals first | rfl | simp [begunWriter]
  exact programmed.streamed (show 0 < 256 by decide) rfl

/-! ### Sink calls -/

/-- A writer that has not failed has appended `bytes`. -/
def Sunk (t : Target) (w : PkgSlotWriter) (bytes : List UInt8) : Prop :=
  Quiet t w.ops ∧ (w.failed = false → Streamed t w bytes)

theorem Sunk.pkgslotSink (h : Sunk t w bytes) (off : UInt32) (data : List UInt8) :
    Sunk t (pkgslotSink fl w off data).2 (bytes ++ data) := by
  unfold Slot.pkgslotSink
  split
  · rename_i failed
    exact ⟨h.1, fun hf => by rw [failed] at hf; cases hf⟩
  rename_i running
  split
  · exact ⟨h.1, fun hf => nomatch hf⟩
  split
  · exact ⟨h.1, fun hf => nomatch hf⟩
  have ends : Ends t (bodyAppend fl w data) fun w' => Streamed t w' (bytes ++ data) :=
    bodyAppend_ends (h.2 (by simpa using running))
  rcases hr : bodyAppend fl w data with ⟨_ | _, w'⟩ <;> rw [hr] at ends
  · exact ⟨ends.1, fun hf => nomatch hf⟩
  · exact ⟨ends.1, fun _ => ends.2 rfl⟩

/-- The sink calls append their data, one after the other. -/
theorem Sunk.calls (h : Sunk t w bytes) (calls : List (UInt32 × List UInt8)) :
    Sunk t (calls.foldl (fun w call => (Slot.pkgslotSink fl w call.1 call.2).2) w)
      (bytes ++ calls.flatMap Prod.snd) := by
  induction calls generalizing w bytes with
  | nil => simpa using h
  | cons call calls ih =>
    rw [List.foldl_cons, List.flatMap_cons, ← List.append_assoc]
    exact ih (h.pkgslotSink call.1 call.2)

/-! ### The commit -/

/-- A body up to the next word boundary. -/
def wordAligned (l : List UInt8) : List UInt8 := l ++ erased (wordPad l.length)

/-- The body with the GOT recipe. -/
def withGot (blob : List UInt8) (m : OwnedManifest) : List UInt8 :=
  wordAligned blob ++ PicGotEntry.codec.encodeAll m.got

/-- The body with both recipes. -/
def withAbs (blob : List UInt8) (m : OwnedManifest) : List UInt8 :=
  wordAligned (withGot blob m) ++ PicAbs32.codec.encodeAll m.abs

/-- The body with the initialisers. -/
def withData (blob : List UInt8) (m : OwnedManifest) : List UInt8 :=
  wordAligned (withAbs blob m) ++ m.dataInit

/-- The body that an install of `m` over `blob` writes. -/
def bodyOf (blob : List UInt8) (m : OwnedManifest) : List UInt8 :=
  withData blob m ++ erased (pagePad (withData blob m).length)

/-- The metadata that it records. -/
def recorded (fw : Firmware) (blob : List UInt8) (m : OwnedManifest) : PkgSlotMeta :=
  metaFor fw m.toPicManifest (.ofNat (wordAligned blob).length)
    (.ofNat (wordAligned (withGot blob m)).length) (.ofNat (wordAligned (withAbs blob m)).length)
    (.ofNat (bodyOf blob m).length)

/-- The commit record was the last operation, the cuts before it are quiet, and the slot holds what
the record is about. -/
structure Committed (t : Target) (ops : List FlashOp) (m : PkgSlotMeta) (body : List UInt8) :
    Prop where
  last : ∃ before, Quiet t before ∧
    ops = before ++ [.program t.slotOff (commitPage (commitFor m body))]
  stored : Stored (t.mapped ops) m body

/-- The last two programs: quiet when one is refused. -/
theorem writeHeader_cases (fl : SlotFlash) (h : Programmed t w body) {m : PkgSlotMeta}
    (hm : m.bodyBytes.toNat = body.length) :
    ((writeHeader fl w m).1 = false ∧ Quiet t (writeHeader fl w m).2.ops) ∨
    ((writeHeader fl w m).1 = true ∧ Committed t (writeHeader fl w m).2.ops m body) := by
  have space := t.space
  have header := t.header
  have metaOff : (w.slotOff + pkgslotMetaOff).toNat = t.slotOff.toNat + 256 := by
    have off : pkgslotMetaOff.toNat = 256 := rfl
    rw [h.slotOff, UInt32.toNat_add, off]
    omega
  unfold writeHeader
  rcases perform_eq fl w (.program (w.slotOff + pkgslotMetaOff) (metaPage m)) with hp | hp <;>
    rw [hp]
  rotate_left
  · exact .inl ⟨rfl, h.quiet⟩
  generalize hops : w.ops ++ [.program (w.slotOff + pkgslotMetaOff) (metaPage m)] = ops
  have outside : ∀ i, i < 256 ∨ 768 ≤ i → t.mapped ops i = t.mapped w.ops i := by
    intro i hi
    rw [← hops, mapped_snoc]
    apply program_outside
    rw [length_metaPage]
    omega
  have info : window (t.mapped ops) 256 512 = metaPage m := by
    have len : 512 = (metaPage m).length := (length_metaPage m).symm
    unfold Target.mapped
    rw [window_shift, ← metaOff, ← hops, applyAll_snoc, len]
    apply window_program
    intro i hi hi'
    rw [length_metaPage] at hi'
    have := h.header (i - t.slotOff.toNat) (by omega)
    unfold Target.mapped at this
    rwa [show t.slotOff.toNat + (i - t.slotOff.toNat) = i by omega] at this
  have quiet : Quiet t ops := by
    rw [← hops]
    apply h.quiet.snoc h.begun
    intro i hi
    rw [← mapped_snoc, hops]
    exact outside i (.inl hi)
  have record : PkgSlotCommit.mk pkgslotMagic pkgslotFormat m.bodyBytes w.crc
      (pkgslotCrc32 0 (metaPage m)) (Vector.replicate 12 0) = commitFor m body := by
    rw [h.crc]
    rfl
  dsimp only
  rw [record]
  rcases perform_eq fl { w with ops := ops } (.program w.slotOff (commitPage (commitFor m body)))
    with hp | hp <;> rw [hp]
  rotate_left
  · exact .inl ⟨rfl, quiet⟩
  dsimp only
  rw [h.slotOff]
  refine .inr ⟨rfl, ⟨ops, quiet, rfl⟩, ?_⟩
  have beyond : ∀ i, 256 ≤ i → t.mapped
      (ops ++ [.program t.slotOff (commitPage (commitFor m body))]) i = t.mapped ops i := by
    intro i hi
    rw [mapped_snoc]
    apply program_outside
    rw [length_commitPage]
    omega
  constructor
  case commit =>
    have len : 256 = (commitPage (commitFor m body)).length := (length_commitPage _).symm
    unfold Target.mapped
    rw [window_shift, applyAll_snoc, Nat.add_zero, len]
    apply window_program
    intro i hi hi'
    rw [length_commitPage] at hi'
    have := outside (i - t.slotOff.toNat) (.inl (by omega))
    rw [h.header (i - t.slotOff.toNat) (by omega)] at this
    unfold Target.mapped at this
    rwa [show t.slotOff.toNat + (i - t.slotOff.toNat) = i by omega] at this
  case info => rw [window_congr fun i _ => beyond (256 + i) (by omega), info]
  case contents =>
    rw [window_congr fun i _ => beyond (4096 + i) (by omega),
      window_congr fun i _ => outside (4096 + i) (.inr (by omega)), h.contents]
  case length => exact hm

/-- The outcome of a commit: quiet when it fails, and `R` of the operations when it succeeds. -/
def Settled (t : Target) (r : Bool × PkgSlotWriter) (R : List FlashOp → Prop) : Prop :=
  (r.1 = false ∧ Quiet t r.2.ops) ∨ (r.1 = true ∧ R r.2.ops)

theorem Settled.fail {R : List FlashOp → Prop} (h : Quiet t w.ops) : Settled t (false, w) R :=
  .inl ⟨rfl, h⟩

theorem Ends.settle {r : Bool × PkgSlotWriter} {P : PkgSlotWriter → Prop}
    {R : List FlashOp → Prop} {next : PkgSlotWriter → Bool × PkgSlotWriter} : Ends t r P →
    (∀ w, P w → Settled t (next w) R) →
    Settled t (match r with
      | (false, w) => (false, w.fail)
      | (true, w) => next w) R := by
  intro h hnext
  rcases r with ⟨_ | _, w⟩
  · exact Settled.fail h.1
  · exact hnext w (h.2 rfl)

theorem Streamed.alignUp_eq (h : Streamed t w bytes) :
    alignUp w.cursor 4 = UInt32.ofNat (wordAligned bytes).length := by
  rw [wordAligned, List.length_append, length_erased, ← h.toNat_alignUp, UInt32.ofNat_toNat]

/-- The last flush of a commit. -/
theorem Streamed.flushPage_ends (h : Streamed t w bytes) :
    Ends t (flushPage fl w) fun w' =>
      Programmed t w' (bytes ++ erased (pagePad bytes.length)) := by
  have base := h.pageBase_le
  have fill := h.fill
  have pages := h.programmed.pages
  have page : w.page.length = bytes.length - w.pageBase.toNat := by rw [h.page, List.length_drop]
  rw [List.length_take, Nat.min_eq_left base] at pages
  have pad : pagePad w.page.length = pagePad bytes.length := by
    unfold pagePad
    omega
  refine (Slot.flushPage_ends h.programmed (by omega)).mono ?_
  rintro w' - ⟨h', -, -⟩
  rwa [pad, h.page, ← List.append_assoc, List.take_append_drop] at h'

/-- `pkgslot_commit` over a writer that was given `blob`. -/
theorem pkgslotCommit_settled (h : Sunk t w blob) (m : OwnedManifest) :
    Settled t (pkgslotCommit fl fw w m) fun ops =>
      m.roSize.toNat = blob.length ∧ Committed t ops (recorded fw blob m) (bodyOf blob m) := by
  unfold pkgslotCommit
  split
  · exact Settled.fail h.1
  rename_i running
  split
  · exact Settled.fail h.1
  rename_i size
  have streamed := h.2 (by simpa using running)
  have size : m.roSize.toNat = blob.length := by rw [← not_not.mp size, streamed.cursor]
  refine Ends.settle (appendArray_ends streamed) ?_
  intro w₁ h₁
  refine Ends.settle (appendArray_ends h₁) ?_
  intro w₂ h₂
  refine Ends.settle (appendArray_ends h₂) ?_
  intro w₃ h₃
  refine Ends.settle h₃.flushPage_ends ?_
  intro w₄ h₄
  have len : w₄.pageBase = UInt32.ofNat (bodyOf blob m).length := by
    rw [show (bodyOf blob m).length = w₄.pageBase.toNat from h₄.pageBase.symm, UInt32.ofNat_toNat]
  have info : metaFor fw m.toPicManifest (alignUp w.cursor 4) (alignUp w₁.cursor 4)
      (alignUp w₂.cursor 4) w₄.pageBase = recorded fw blob m := by
    rw [streamed.alignUp_eq, h₁.alignUp_eq, h₂.alignUp_eq, len]
    rfl
  rw [info]
  have body : (recorded fw blob m).bodyBytes.toNat = (bodyOf blob m).length := by
    show (UInt32.ofNat (bodyOf blob m).length).toNat = _
    rw [← len]
    exact h₄.pageBase
  rcases writeHeader_cases fl h₄ body with ⟨failed, quiet⟩ | ⟨done, committed⟩
  · rcases hr : writeHeader fl w₄ (recorded fw blob m) with ⟨_ | _, w'⟩ <;> rw [hr] at failed quiet
    · exact Settled.fail quiet
    · cases failed
  · rcases hr : writeHeader fl w₄ (recorded fw blob m) with ⟨_ | _, w'⟩ <;>
      rw [hr] at done committed
    · cases done
    · exact .inr ⟨rfl, size, committed⟩

/-! ### What is reported -/

/-- The opened manifest is the one that was installed, and the regions that it describes hold the
blob and the arrays that were installed. -/
structure Reports (base : Nat → UInt8) (o : BorrowedManifest) (blob : List UInt8)
    (m : OwnedManifest) : Prop where
  manifest : o.toPicManifest = m.toPicManifest
  blob : window base 4096 o.roSize.toNat = blob
  got : PicGotEntry.codec.readAll base o.got o.gotCount.toNat = m.got
  abs : PicAbs32.codec.readAll base o.abs o.absCount.toNat = m.abs
  dataInit : window base o.dataInit o.dataSize.toNat = m.dataInit

/-- A part of the body, where it is mapped. -/
theorem Stored.slice {base : Nat → UInt8} {m : PkgSlotMeta} {front part : List UInt8}
    (h : Stored base m body) (hpre : front ++ part <+: body) :
    window base (4096 + front.length) part.length = part := by
  rcases hpre with ⟨rest, rfl⟩
  have contents := h.contents
  rw [List.length_append, List.length_append, window_add, window_add] at contents
  have front_part := List.append_inj_left contents (by simp)
  exact List.append_inj_right front_part (by simp)

/-- A slot that holds what an install of `m` over `blob` writes. -/
theorem Stored.reports {base : Nat → UInt8} {m : OwnedManifest}
    (h : Stored base (recorded fw blob m) (bodyOf blob m)) (size : m.roSize.toNat = blob.length) :
    Reports base (recorded fw blob m).opened blob m := by
  have data_body : withData blob m <+: bodyOf blob m := List.prefix_append _ _
  have abs_data : withAbs blob m <+: withData blob m :=
    (List.prefix_append _ _).trans (List.prefix_append _ _)
  have got_abs : withGot blob m <+: withAbs blob m :=
    (List.prefix_append _ _).trans (List.prefix_append _ _)
  have blob_got : blob <+: withGot blob m :=
    (List.prefix_append _ _).trans (List.prefix_append _ _)
  have abs_body := abs_data.trans data_body
  have got_body := got_abs.trans abs_body
  have body_lt : (bodyOf blob m).length < 2 ^ 32 := by
    rw [← h.length]
    exact UInt32.toNat_lt _
  have offset : ∀ {l : List UInt8}, l <+: bodyOf blob m →
      (UInt32.ofNat l.length).toNat = l.length := fun hl =>
    UInt32.toNat_ofNat_of_lt' (hl.length_le.trans_lt body_lt)
  constructor
  case manifest => rfl
  case blob =>
    have whole : [] ++ blob <+: bodyOf blob m := blob_got.trans got_body
    have part := h.slice whole
    rwa [← size] at part
  case got =>
    have part := h.slice got_body
    rw [Codec.length_encodeAll] at part
    show PicGotEntry.codec.readAll base (4096 + (UInt32.ofNat (wordAligned blob).length).toNat)
      m.gotCount.toNat = m.got
    rw [offset ((List.prefix_append _ _).trans got_body), ← m.got_length]
    exact Codec.readAll_of_window _ part
  case abs =>
    have part := h.slice abs_body
    rw [Codec.length_encodeAll] at part
    show PicAbs32.codec.readAll base
      (4096 + (UInt32.ofNat (wordAligned (withGot blob m)).length).toNat) m.absCount.toNat = m.abs
    rw [offset ((List.prefix_append _ _).trans abs_body), ← m.abs_length]
    exact Codec.readAll_of_window _ part
  case dataInit =>
    have part := h.slice data_body
    show window base (4096 + (UInt32.ofNat (wordAligned (withAbs blob m)).length).toNat)
      m.dataSize.toNat = m.dataInit
    rw [offset ((List.prefix_append _ _).trans data_body), ← m.dataInit_length]
    exact part

/-! ### Installs -/

section

variable {slotOff slotBytes : UInt32} {calls : List (UInt32 × List UInt8)} {m : OwnedManifest}

/-- An install is refused before it touches the flash, or settles. -/
theorem install_cases (fl : SlotFlash) (fw : Firmware) (calls : List (UInt32 × List UInt8))
    (m : OwnedManifest) (old : Nat → UInt8)
    (space : slotOff.toNat + slotBytes.toNat + 4096 < 2 ^ 32) :
    ((install fl fw slotOff slotBytes calls m).1 = false ∧
      (install fl fw slotOff slotBytes calls m).2.ops = []) ∨
    ∃ t : Target, t.slotOff = slotOff ∧ t.slotBytes = slotBytes ∧ t.old = old ∧
      Settled t (install fl fw slotOff slotBytes calls m) fun ops =>
        m.roSize.toNat = (calls.flatMap Prod.snd).length ∧
          Committed t ops (recorded fw (calls.flatMap Prod.snd) m)
            (bodyOf (calls.flatMap Prod.snd) m) := by
  unfold install
  rcases pkgslotBegin_cases fl slotOff slotBytes with ⟨failed, none⟩ | ⟨larger, aligned, begun⟩
  · rcases hr : pkgslotBegin fl slotOff slotBytes with ⟨_ | _, w⟩ <;> rw [hr] at failed none
    · exact .inl ⟨rfl, none⟩
    · cases failed
  · rw [begun]
    let t : Target := ⟨slotOff, slotBytes, old, aligned, larger, space⟩
    have streamed := streamed_begunWriter t
    have sunk : Sunk t (begunWriter slotOff slotBytes) [] :=
      ⟨streamed.programmed.quiet, fun _ => streamed⟩
    exact .inr ⟨t, rfl, rfl, rfl, pkgslotCommit_settled (sunk.calls calls) m⟩

/-- Whatever was in the slot, a cut install opens only when nothing is cut off: the commit record
was programmed, and what is reported is what was installed. -/
theorem cut_install_opens {fw' : Firmware} {old : Nat → UInt8} {cut : List FlashOp}
    {o : BorrowedManifest} (space : slotOff.toNat + slotBytes.toNat + 4096 < 2 ^ 32)
    (hcut : cut <+: (install fl fw slotOff slotBytes calls m).2.ops) (begun : cut ≠ [])
    (ho : pkgslotOpen fw' (fun i => applyAll old cut (slotOff.toNat + i)) slotBytes = .ok o) :
    (install fl fw slotOff slotBytes calls m).1 = true ∧
      cut = (install fl fw slotOff slotBytes calls m).2.ops ∧
      (∃ c, cut.getLast? = some (.program slotOff (commitPage c))) ∧
      Reports (fun i => applyAll old cut (slotOff.toNat + i)) o (calls.flatMap Prod.snd) m := by
  rcases install_cases fl fw calls m old space with
    ⟨-, none⟩ | ⟨t, rfl, rfl, rfl, ⟨failed, quiet⟩ | ⟨done, size, committed⟩⟩
  · rw [none, List.prefix_nil] at hcut
    exact absurd hcut begun
  · exact absurd ho (not_open_of_blank (quiet cut hcut begun))
  · rcases committed.last with ⟨before, quiet, all⟩
    rw [all] at hcut
    rcases List.prefix_concat_iff.mp hcut with whole | hcut
    · rw [← all] at whole
      have stored := committed.stored
      rw [← whole] at stored
      have opened : o = (metaOf (t.mapped cut)).opened := (pkgslotOpen_ok_iff.mp ho).2
      rw [stored.metaOf_eq] at opened
      refine ⟨done, whole, ⟨commitFor (recorded fw (calls.flatMap Prod.snd) m)
        (bodyOf (calls.flatMap Prod.snd) m), ?_⟩, ?_⟩
      · rw [whole, all, List.getLast?_concat]
      · rw [opened]
        exact stored.reports size
    · exact absurd ho (not_open_of_blank (quiet cut hcut begun))

end

/-! ### A small install -/

/-- The manifest of `tinyMeta`, with empty arrays. -/
def tinyManifest : OwnedManifest :=
  { tinyMeta.manifest with
    got := []
    abs := []
    dataInit := []
    got_length := rfl
    abs_length := rfl
    dataInit_length := rfl
    got_fits := by decide
    abs_fits := by decide }

/-- The four bytes of its blob. -/
def tinyBlob : List UInt8 := [0, 0, 0, 0]

/-- An install of `tinyManifest` on a flash that refuses nothing. -/
def tinyInstall : Bool × PkgSlotWriter :=
  install (fun _ _ => true) anyFirmware 0 8192 [(0, tinyBlob)] tinyManifest

/-- The flash after it, when nothing was there before. -/
def tinyFlash : Nat → UInt8 := fun i => applyAll (fun _ => 0xFF) tinyInstall.2.ops (0 + i)

theorem bodyAppend_nil (fl : SlotFlash) (w : PkgSlotWriter) : bodyAppend fl w [] = (true, w) := by
  unfold bodyAppend
  rfl

theorem appendArray_nil (fl : SlotFlash) (h : ¬w.cursor < alignUp w.cursor 4) :
    appendArray fl w [] = (true, w) := by
  unfold appendArray bodyPadTo
  rw [if_neg h]
  exact bodyAppend_nil fl w

/-- The writer after the blob. -/
def tinyWriter : PkgSlotWriter := { begunWriter 0 8192 with page := tinyBlob, cursor := 4 }

theorem bodyAppend_tinyBlob :
    bodyAppend (fun _ _ => true) (begunWriter 0 8192) tinyBlob = (true, tinyWriter) := by
  unfold bodyAppend
  rw [if_neg (by decide)]
  dsimp only
  rw [if_neg (by decide), if_neg (by decide)]
  exact bodyAppend_nil _ _

theorem tinyInstall_done : tinyInstall.1 = true := by
  show (pkgslotCommit _ _ (if _ then _ else if _ then _ else if _ then _ else
    match bodyAppend _ (begunWriter 0 8192) tinyBlob with
    | (false, w) => _
    | (true, w) => _ : Bool × PkgSlotWriter).2 tinyManifest).1 = true
  rw [bodyAppend_tinyBlob]
  have none : appendArray (fun _ _ => true) tinyWriter [] = (true, tinyWriter) :=
    appendArray_nil _ (by decide)
  have arrays : PicGotEntry.codec.encodeAll tinyManifest.got = [] ∧
      PicAbs32.codec.encodeAll tinyManifest.abs = [] ∧ tinyManifest.dataInit = [] :=
    ⟨rfl, rfl, rfl⟩
  show (pkgslotCommit _ _ tinyWriter tinyManifest).1 = true
  unfold pkgslotCommit
  rw [if_neg (by decide), if_neg (by decide)]
  simp only [arrays, none]
  rfl

theorem recorded_tiny_checked :
    MetaChecked anyFirmware 8192 (recorded anyFirmware tinyBlob tinyManifest) := by
  constructor <;> decide +kernel

theorem tinyFlash_opens : pkgslotOpen anyFirmware tinyFlash 8192 =
    .ok (recorded anyFirmware tinyBlob tinyManifest).opened := by
  have space : (0 : UInt32).toNat + (8192 : UInt32).toNat + 4096 < 2 ^ 32 := by decide
  rcases install_cases (fun _ _ => true) anyFirmware [(0, tinyBlob)] tinyManifest (fun _ => 0xFF)
    space with
    ⟨failed, -⟩ | ⟨⟨off, bytes, old, _, _, _⟩, rfl, rfl, rfl, ⟨failed, -⟩ | ⟨-, -, committed⟩⟩
  · exact absurd (tinyInstall_done.symm.trans failed) (by decide)
  · exact absurd (tinyInstall_done.symm.trans failed) (by decide)
  · exact committed.stored.open recorded_tiny_checked

theorem cut_install_opens_tiny :
    Reports tinyFlash (recorded anyFirmware tinyBlob tinyManifest).opened tinyBlob
      tinyManifest := by
  have begun : tinyInstall.2.ops ≠ [] := by
    intro none
    apply not_open_of_blank _ tinyFlash_opens
    intro i _
    unfold tinyFlash
    rw [none]
    rfl
  exact (cut_install_opens (by decide) List.prefix_rfl begun tinyFlash_opens).2.2.2

/-- Before the first operation the old slot is still there. -/
theorem not_all_cuts_closed :
    ¬∀ fl fw fw' old slotOff slotBytes calls m cut o,
      slotOff.toNat + slotBytes.toNat + 4096 < 2 ^ 32 →
      cut <+: (install fl fw slotOff slotBytes calls m).2.ops →
      pkgslotOpen fw' (fun i => applyAll old cut (slotOff.toNat + i)) slotBytes = .ok o →
      ∃ c, cut.getLast? = some (.program slotOff (commitPage c)) := by
  intro h
  have opens := (stored_erasedSlot (m := tinyMeta) rfl).open tinyMeta_checked
  have shifted : (fun i => applyAll (erasedSlot tinyMeta) [] ((0 : UInt32).toNat + i)) =
      erasedSlot tinyMeta := by
    funext i
    show erasedSlot tinyMeta (0 + i) = _
    rw [Nat.zero_add]
  rcases h (fun _ _ => true) anyFirmware anyFirmware (erasedSlot tinyMeta) 0 8192 [] tinyManifest []
    _ (by decide) List.nil_prefix (by rw [shifted]; exact opens) with ⟨c, hc⟩
  cases hc

end RPCortex.Slot
