import RPCortex.Slot.Atomic

/-! The slot writer does not depend on where its slot is: at any offset it performs the operations of a slot at 0,
moved there. -/

namespace RPCortex.Slot

open Lib PkgSlotWriter

/-- The operation `d` further on. -/
def FlashOp.moved (d : UInt32) : FlashOp → FlashOp
  | .erase off len => .erase (d + off) len
  | .program off data => .program (d + off) data

/-- The writer for a slot that is `d` further on. -/
def PkgSlotWriter.moved (d : UInt32) (w : PkgSlotWriter) : PkgSlotWriter :=
  { w with slotOff := d + w.slotOff, ops := w.ops.map (FlashOp.moved d) }

/-- The flash as it is seen from `d`. -/
def SlotFlash.from_ (fl : SlotFlash) (d : UInt32) : SlotFlash :=
  fun ops op => fl (ops.map (FlashOp.moved d)) (op.moved d)

/-- The outcome of a step, moved. -/
def movedStep (d : UInt32) (r : Bool × PkgSlotWriter) : Bool × PkgSlotWriter := (r.1, r.2.moved d)

variable {fl : SlotFlash} {d : UInt32} {fw : Firmware}

@[simp] theorem moved_slotOff (w : PkgSlotWriter) : (w.moved d).slotOff = d + w.slotOff := rfl
@[simp] theorem moved_slotBytes (w : PkgSlotWriter) : (w.moved d).slotBytes = w.slotBytes := rfl
@[simp] theorem moved_cursor (w : PkgSlotWriter) : (w.moved d).cursor = w.cursor := rfl
@[simp] theorem moved_erasedTo (w : PkgSlotWriter) : (w.moved d).erasedTo = w.erasedTo := rfl
@[simp] theorem moved_pageBase (w : PkgSlotWriter) : (w.moved d).pageBase = w.pageBase := rfl
@[simp] theorem moved_page (w : PkgSlotWriter) : (w.moved d).page = w.page := rfl
@[simp] theorem moved_failed (w : PkgSlotWriter) : (w.moved d).failed = w.failed := rfl
theorem perform_moved (w : PkgSlotWriter) (op : FlashOp) :
    (w.moved d).perform fl (op.moved d) = movedStep d (w.perform (fl.from_ d) op) := by
  unfold PkgSlotWriter.perform SlotFlash.from_ PkgSlotWriter.moved
  dsimp only
  split
  · simp [movedStep, PkgSlotWriter.moved]
  · rfl

theorem moved_erase (a b off len : UInt32) :
    FlashOp.erase (d + a + b + off) len = (FlashOp.erase (a + b + off) len).moved d := by
  rw [FlashOp.moved, ← add_assoc, ← add_assoc]

theorem moved_program (a b off : UInt32) (data : List UInt8) :
    FlashOp.program (d + a + b + off) data = (FlashOp.program (a + b + off) data).moved d := by
  rw [FlashOp.moved, ← add_assoc, ← add_assoc]

theorem eraseTo_moved (w : PkgSlotWriter) (need : UInt32) :
    eraseTo fl (w.moved d) need = movedStep d (eraseTo (fl.from_ d) w need) := by
  have erase := @perform_moved fl d w (.erase (w.slotOff + pkgslotHeader + w.erasedTo)
    (alignUp need pkgslotErase - w.erasedTo))
  rw [← moved_erase] at erase
  rw [eraseTo, eraseTo]
  by_cases le : need ≤ w.erasedTo
  · rw [if_pos le, if_pos (show need ≤ (w.moved d).erasedTo from le)]
    rfl
  rw [if_neg le, if_neg (show ¬need ≤ (w.moved d).erasedTo from le)]
  dsimp only
  by_cases room : pkgslotHeader + alignUp need pkgslotErase > w.slotBytes
  · rw [if_pos room, if_pos (show pkgslotHeader + alignUp need pkgslotErase > (w.moved d).slotBytes from room)]
    rfl
  rw [if_neg room, if_neg (show ¬pkgslotHeader + alignUp need pkgslotErase > (w.moved d).slotBytes from room),
    moved_slotOff, moved_erasedTo, erase]
  rcases w.perform (fl.from_ d) _ with ⟨_ | _, w'⟩
  · rfl
  · rfl

theorem flushPage_moved (w : PkgSlotWriter) :
    flushPage fl (w.moved d) = movedStep d (flushPage (fl.from_ d) w) := by
  unfold flushPage
  simp only [moved_page, moved_pageBase, eraseTo_moved]
  split_ifs with empty
  · rfl
  rcases eraseTo (fl.from_ d) w _ with ⟨_ | _, w₁⟩
  · rfl
  simp only [movedStep, moved_slotOff, moved_pageBase]
  rw [moved_program, perform_moved]
  rcases w₁.perform (fl.from_ d) _ with ⟨_ | _, w₂⟩
  · rfl
  · rfl

theorem bodyAppend_moved (w : PkgSlotWriter) (data : List UInt8) :
    bodyAppend fl (w.moved d) data = movedStep d (bodyAppend (fl.from_ d) w data) := by
  induction hlen : data.length using Nat.strong_induction_on generalizing w data with
  | _ len ih =>
  rw [bodyAppend, bodyAppend.eq_def (fl.from_ d)]
  dsimp only
  by_cases empty : data = []
  · rw [if_pos empty, if_pos empty]
    rfl
  rw [if_neg empty, if_neg empty, moved_page]
  have pos := List.length_pos_iff.mpr empty
  generalize hn : min data.length (pkgslotProg.toNat - w.page.length) = n
  by_cases none_ : n = 0
  · rw [if_pos none_, if_pos none_]
    rfl
  have shorter : (data.drop n).length < len := by
    rw [List.length_drop]
    omega
  rw [if_neg none_, if_neg none_]
  split_ifs with full
  · have flush := @flushPage_moved fl d
      { w with page := w.page ++ data.take n, cursor := w.cursor + UInt32.ofNat n }
    rcases hf : flushPage (fl.from_ d)
      { w with page := w.page ++ data.take n, cursor := w.cursor + UInt32.ofNat n } with ⟨_ | _, w₁⟩ <;>
      rw [hf] at flush <;> erw [flush]
    · rfl
    · exact ih _ shorter _ _ rfl
  · exact ih _ shorter { w with page := w.page ++ data.take n, cursor := w.cursor + UInt32.ofNat n } _ rfl

theorem bodyPadTo_moved (w : PkgSlotWriter) (dst : UInt32) :
    bodyPadTo fl (w.moved d) dst = movedStep d (bodyPadTo (fl.from_ d) w dst) := by
  unfold bodyPadTo
  rw [moved_cursor, bodyAppend_moved]
  split_ifs
  · rfl
  · rfl

theorem appendArray_moved (w : PkgSlotWriter) (data : List UInt8) :
    appendArray fl (w.moved d) data = movedStep d (appendArray (fl.from_ d) w data) := by
  unfold appendArray
  rw [moved_cursor, bodyPadTo_moved]
  rcases bodyPadTo (fl.from_ d) w _ with ⟨_ | _, w₁⟩
  · rfl
  · exact bodyAppend_moved w₁ data

theorem pkgslotSink_moved (w : PkgSlotWriter) (off : UInt32) (data : List UInt8) :
    pkgslotSink fl (w.moved d) off data = movedStep d (pkgslotSink (fl.from_ d) w off data) := by
  unfold pkgslotSink
  simp only [moved_failed, moved_cursor, moved_slotBytes, bodyAppend_moved]
  split_ifs with failed order room
  · rfl
  · rfl
  · rfl
  rcases bodyAppend (fl.from_ d) w data with ⟨_ | _, w₁⟩
  · rfl
  · rfl

theorem writeHeader_moved (w : PkgSlotWriter) (m : PkgSlotMeta) :
    writeHeader fl (w.moved d) m = movedStep d (writeHeader (fl.from_ d) w m) := by
  unfold writeHeader
  have info : FlashOp.program (d + w.slotOff + pkgslotMetaOff) (metaPage m) =
      (FlashOp.program (w.slotOff + pkgslotMetaOff) (metaPage m)).moved d := by
    rw [FlashOp.moved, ← add_assoc]
  rw [moved_slotOff, info, perform_moved]
  rcases w.perform (fl.from_ d) _ with ⟨_ | _, w₁⟩
  · rfl
  · exact perform_moved w₁ (.program w₁.slotOff _)

theorem pkgslotCommit_moved (w : PkgSlotWriter) (m : OwnedManifest) :
    pkgslotCommit fl fw (w.moved d) m = movedStep d (pkgslotCommit (fl.from_ d) fw w m) := by
  unfold pkgslotCommit
  simp only [moved_failed, moved_cursor, appendArray_moved]
  split_ifs with failed size
  · rfl
  · rfl
  rcases appendArray (fl.from_ d) w _ with ⟨_ | _, w₁⟩
  · rfl
  simp only [movedStep, moved_cursor, appendArray_moved]
  rcases appendArray (fl.from_ d) w₁ _ with ⟨_ | _, w₂⟩
  · rfl
  simp only [movedStep, moved_cursor, appendArray_moved]
  rcases appendArray (fl.from_ d) w₂ _ with ⟨_ | _, w₃⟩
  · rfl
  simp only [movedStep, flushPage_moved]
  rcases flushPage (fl.from_ d) w₃ with ⟨_ | _, w₄⟩
  · rfl
  simp only [movedStep, moved_pageBase, writeHeader_moved]
  rcases writeHeader (fl.from_ d) w₄ _ with ⟨_ | _, w₅⟩
  · rfl
  · rfl

theorem calls_moved (w : PkgSlotWriter) (calls : List (UInt32 × List UInt8)) :
    calls.foldl (fun w call => (pkgslotSink fl w call.1 call.2).2) (w.moved d) =
      (calls.foldl (fun w call => (pkgslotSink (fl.from_ d) w call.1 call.2).2) w).moved d := by
  induction calls generalizing w with
  | nil => rfl
  | cons call calls ih =>
    rw [List.foldl_cons, List.foldl_cons, pkgslotSink_moved]
    exact ih _

/-- What follows an accepted `pkgslot_begin` is what follows it in a slot at 0, moved. -/
theorem install_moved {slotOff slotBytes : UInt32} (calls : List (UInt32 × List UInt8)) (m : OwnedManifest)
    (begun : pkgslotBegin fl slotOff slotBytes = (true, begunWriter slotOff slotBytes)) :
    install fl fw slotOff slotBytes calls m = movedStep slotOff (pkgslotCommit (fl.from_ slotOff) fw
      (calls.foldl (fun w call => (pkgslotSink (fl.from_ slotOff) w call.1 call.2).2) (begunWriter 0 slotBytes)) m) := by
  have writer : begunWriter slotOff slotBytes = (begunWriter 0 slotBytes).moved slotOff := by
    unfold begunWriter PkgSlotWriter.moved
    simp [FlashOp.moved]
  unfold install
  rw [begun]
  dsimp only
  rw [writer, calls_moved, pkgslotCommit_moved]

/-- The flash after operations that were moved, where none of them wraps. -/
theorem applyAll_moved (old : Nat → UInt8) {ops : List FlashOp}
    (plain : ∀ op ∈ ops, ∀ off len data, (op = .erase off len ∨ op = .program off data) → d.toNat + off.toNat < 2 ^ 32)
    (i : Nat) :
    applyAll old (ops.map (FlashOp.moved d)) (d.toNat + i) = applyAll (fun i => old (d.toNat + i)) ops i := by
  induction ops using List.reverseRecOn with
  | nil => rfl
  | append_singleton ops op ih =>
    have before := ih fun op mem => plain op (List.mem_append_left _ mem)
    rw [List.map_append, List.map_singleton, applyAll_snoc, applyAll_snoc]
    cases op with
    | erase off len =>
      have lt := plain _ (by simp) off len [] (.inl rfl)
      have sum : (d + off).toNat = d.toNat + off.toNat := by
        rw [UInt32.toNat_add, Nat.mod_eq_of_lt lt]
      simp only [FlashOp.moved, FlashOp.apply, sum, before]
      congr 1
      simp only [eq_iff_iff]
      omega
    | program off data =>
      have lt := plain _ (by simp) off 0 data (.inr rfl)
      have sum : (d + off).toNat = d.toNat + off.toNat := by
        rw [UInt32.toNat_add, Nat.mod_eq_of_lt lt]
      simp only [FlashOp.moved, FlashOp.apply, sum, before, Nat.add_sub_add_left]
      congr 1
      simp only [eq_iff_iff]
      omega

end RPCortex.Slot
