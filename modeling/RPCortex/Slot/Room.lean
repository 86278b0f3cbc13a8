import RPCortex.Slot.Writer

/-! The slot writer over a flash that refuses nothing.  What it writes then fails only where the
slot ends, so a writer that has the room for its bytes accepts them. -/

namespace RPCortex.Slot

open Lib

/-- A flash whose operations all succeed. -/
def acceptAll : SlotFlash := fun _ _ => true

/-- A writer in a slot of `slotBytes` whose body ends at its cursor. -/
structure Roomy (slotBytes : UInt32) (w : PkgSlotWriter) : Prop where
  slot : w.slotBytes = slotBytes
  working : w.failed = false
  aligned : slotBytes.toNat % 4096 = 0
  header : 4096 < slotBytes.toNat
  pages : w.pageBase.toNat % 256 = 0
  fill : w.page.length < 256
  cursor : w.cursor.toNat = w.pageBase.toNat + w.page.length
  inside : w.cursor.toNat + 4096 ≤ slotBytes.toNat

/-- `r` is a success that leaves the writer `n` bytes further on. -/
def Takes (slotBytes : UInt32) (w : PkgSlotWriter) (n : Nat) (r : Bool × PkgSlotWriter) : Prop :=
  r.1 = true ∧ Roomy slotBytes r.2 ∧ r.2.cursor.toNat = w.cursor.toNat + n

variable {slotBytes : UInt32} {w : PkgSlotWriter} {data : List UInt8}

theorem perform_acceptAll (w : PkgSlotWriter) (op : FlashOp) :
    w.perform acceptAll op = (true, { w with ops := w.ops ++ [op] }) := rfl

theorem eraseTo_acceptAll (hs : w.slotBytes = slotBytes) (aligned : slotBytes.toNat % 4096 = 0)
    {need : UInt32} (room : need.toNat + 4096 ≤ slotBytes.toNat) :
    ∃ erasedTo ops, eraseTo acceptAll w need = (true, { w with erasedTo := erasedTo, ops := ops }) := by
  unfold eraseTo
  split
  · exact ⟨w.erasedTo, w.ops, rfl⟩
  dsimp only
  have lt := slotBytes.toNat_lt
  have header : pkgslotHeader.toNat = 4096 := rfl
  have want : (alignUp need pkgslotErase).toNat = (need.toNat + 4095) / 4096 * 4096 :=
    toNat_alignUp (k := 12) rfl (by omega)
  have small : ¬pkgslotHeader + alignUp need pkgslotErase > w.slotBytes := by
    rw [hs]
    intro big
    have big := UInt32.lt_iff_toNat_lt.mp big
    rw [UInt32.toNat_add, header, want] at big
    omega
  rw [if_neg small, perform_acceptAll]
  exact ⟨_, _, rfl⟩

theorem flushPage_acceptAll (hs : w.slotBytes = slotBytes) (aligned : slotBytes.toNat % 4096 = 0)
    (pages : w.pageBase.toNat % 256 = 0) (fill : w.page.length ≤ 256)
    (room : w.pageBase.toNat + w.page.length + 4096 ≤ slotBytes.toNat) :
    ∃ w', flushPage acceptAll w = (true, w') ∧ w'.slotBytes = slotBytes ∧ w'.failed = w.failed ∧
      w'.cursor = w.cursor ∧ w'.page = [] ∧
      w'.pageBase.toNat = (w.pageBase.toNat + w.page.length + 255) / 256 * 256 := by
  unfold flushPage
  split
  · rename_i none
    refine ⟨w, rfl, hs, rfl, rfl, none, ?_⟩
    rw [none, List.length_nil]
    omega
  dsimp only
  have lt := slotBytes.toNat_lt
  have len : (UInt32.ofNat w.page.length).toNat = w.page.length := by
    rw [UInt32.toNat_ofNat']
    omega
  have count : (alignUp (UInt32.ofNat w.page.length) pkgslotProg).toNat =
      (w.page.length + 255) / 256 * 256 := by
    rw [toNat_alignUp (k := 8) rfl (by omega), len]
    rfl
  have base : (w.pageBase + alignUp (UInt32.ofNat w.page.length) pkgslotProg).toNat =
      (w.pageBase.toNat + w.page.length + 255) / 256 * 256 := by
    rw [UInt32.toNat_add, count]
    omega
  rcases eraseTo_acceptAll hs aligned (by rw [base]; omega) with ⟨erasedTo, ops, he⟩
  rw [he]
  dsimp only
  rw [perform_acceptAll]
  exact ⟨_, rfl, hs, rfl, rfl, rfl, base⟩

/-- `body_append` of bytes that the slot has room for. -/
theorem bodyAppend_takes (h : Roomy slotBytes w)
    (room : w.cursor.toNat + data.length + 4096 ≤ slotBytes.toNat) :
    Takes slotBytes w data.length (bodyAppend acceptAll w data) := by
  induction hlen : data.length using Nat.strong_induction_on generalizing w data with
  | _ len ih =>
  unfold bodyAppend
  split
  · rename_i empty
    have none : len = 0 := by rw [← hlen, empty, List.length_nil]
    rw [none]
    exact ⟨rfl, h, rfl⟩
  rename_i nonempty
  have pos : 0 < data.length := List.length_pos_iff.mpr nonempty
  have fill := h.fill
  have cursor := h.cursor
  have lt := slotBytes.toNat_lt
  have prog : pkgslotProg.toNat = 256 := rfl
  rw [prog]
  dsimp only
  generalize hn : min data.length (256 - w.page.length) = n
  have taken : (w.page ++ data.take n).length = w.page.length + n := by
    rw [List.length_append, List.length_take]
    omega
  have moved : (w.cursor + UInt32.ofNat n).toNat = w.cursor.toNat + n := by
    rw [UInt32.toNat_add, UInt32.toNat_ofNat']
    omega
  have shorter : (data.drop n).length < len := by
    rw [List.length_drop]
    omega
  have rest : (data.drop n).length + n = len := by
    rw [List.length_drop]
    omega
  -- what follows the page continues from a writer that is `n` bytes further on
  have next : ∀ w', Roomy slotBytes w' → w'.cursor.toNat = w.cursor.toNat + n →
      Takes slotBytes w len (bodyAppend acceptAll w' (data.drop n)) := by
    intro w' h' hw'
    rcases ih _ shorter h' (by omega) rfl with ⟨ok, roomy, fin⟩
    exact ⟨ok, roomy, by omega⟩
  rw [if_neg (show n ≠ 0 by omega)]
  split
  · rename_i full
    have full : (w.page ++ data.take n).length = 256 := full
    rcases flushPage_acceptAll (w := { w with
        page := w.page ++ data.take n, cursor := w.cursor + UInt32.ofNat n })
        h.slot h.aligned h.pages full.le (by rw [full]; show w.pageBase.toNat + 256 + 4096 ≤ _; omega)
      with ⟨w', hw', slot, working, cursor', page, base⟩
    rw [hw']
    have base : w'.pageBase.toNat = w.pageBase.toNat + 256 := by
      rw [base, full]
      have := h.pages
      show (w.pageBase.toNat + 256 + 255) / 256 * 256 = _
      omega
    have cursor' : w'.cursor.toNat = w.cursor.toNat + n := by rw [cursor']; exact moved
    have pages := h.pages
    have none : w'.page.length = 0 := by rw [page, List.length_nil]
    exact next w' ⟨slot, working.trans h.working, h.aligned, h.header, by omega, by omega, by omega,
      by omega⟩ cursor'
  · rename_i part
    have part : (w.page ++ data.take n).length ≠ 256 := part
    refine next _ ⟨h.slot, h.working, h.aligned, h.header, h.pages, ?_, ?_, ?_⟩ moved
    · show (w.page ++ data.take n).length < 256
      omega
    · show (w.cursor + UInt32.ofNat n).toNat = w.pageBase.toNat + (w.page ++ data.take n).length
      omega
    · show (w.cursor + UInt32.ofNat n).toNat + 4096 ≤ _
      omega

/-- `pkgslot_sink`, at the cursor. -/
theorem pkgslotSink_takes (h : Roomy slotBytes w) {off : UInt32} (at_cursor : off = w.cursor)
    (room : w.cursor.toNat + data.length + 4096 ≤ slotBytes.toNat) :
    Takes slotBytes w data.length (pkgslotSink acceptAll w off data) := by
  have lt := slotBytes.toNat_lt
  have header : pkgslotHeader.toNat = 4096 := rfl
  have small : ¬pkgslotHeader + w.cursor + UInt32.ofNat data.length > w.slotBytes := by
    rw [h.slot]
    intro big
    have big := UInt32.lt_iff_toNat_lt.mp big
    rw [UInt32.toNat_add, UInt32.toNat_add, header, UInt32.toNat_ofNat'] at big
    omega
  rcases bodyAppend_takes h room with ⟨ok, roomy, fin⟩
  unfold pkgslotSink
  rw [h.working, if_neg Bool.false_ne_true, if_neg (not_not.mpr at_cursor), if_neg small]
  generalize bodyAppend acceptAll w data = r at ok roomy fin
  rcases r with ⟨b, w'⟩
  cases ok
  exact ⟨rfl, roomy, fin⟩

theorem appendArray_takes (h : Roomy slotBytes w)
    (room : (w.cursor.toNat + 3) / 4 * 4 + data.length + 4096 ≤ slotBytes.toNat) :
    (appendArray acceptAll w data).1 = true ∧ Roomy slotBytes (appendArray acceptAll w data).2 ∧
      (appendArray acceptAll w data).2.cursor.toNat =
        (w.cursor.toNat + 3) / 4 * 4 + data.length := by
  have lt := slotBytes.toNat_lt
  have dst : (alignUp w.cursor 4).toNat = (w.cursor.toNat + 3) / 4 * 4 :=
    toNat_alignUp (k := 2) rfl (by omega)
  have padded : Takes slotBytes w ((w.cursor.toNat + 3) / 4 * 4 - w.cursor.toNat)
      (bodyPadTo acceptAll w (alignUp w.cursor 4)) := by
    unfold bodyPadTo
    split
    · rename_i before
      have before := UInt32.lt_iff_toNat_lt.mp before
      have pad : (erased (alignUp w.cursor 4 - w.cursor).toNat).length =
          (w.cursor.toNat + 3) / 4 * 4 - w.cursor.toNat := by
        rw [length_erased, UInt32.toNat_sub_of_le _ _ (UInt32.le_iff_toNat_le.mpr before.le), dst]
      rw [← pad]
      apply bodyAppend_takes h
      omega
    · rename_i past
      have past := UInt32.le_iff_toNat_le.mp (UInt32.not_lt.mp past)
      refine ⟨rfl, h, ?_⟩
      show w.cursor.toNat = _
      omega
  rcases padded with ⟨ok, roomy, fin⟩
  unfold appendArray
  generalize bodyPadTo acceptAll w (alignUp w.cursor 4) = r at ok roomy fin
  rcases r with ⟨b, w'⟩
  cases ok
  dsimp only at roomy fin ⊢
  have fits : w'.cursor.toNat + data.length + 4096 ≤ slotBytes.toNat := by omega
  rcases bodyAppend_takes roomy fits with ⟨ok, roomy', fin'⟩
  exact ⟨ok, roomy', by omega⟩

end RPCortex.Slot
