import RPCortex.Slot.Writer

/-! The operations of the slot writer are only added to.  A failing write has performed what came
before its failure, the erase of the header first of all. -/

namespace RPCortex.Slot

open Lib PkgSlotWriter

variable {fl : SlotFlash} {fw : Firmware} {w : PkgSlotWriter} {ops : List FlashOp}

/-- Whatever a step did, the operations before it are still there. -/
theorem grows_step {r : Bool × PkgSlotWriter} {fails next : PkgSlotWriter → Bool × PkgSlotWriter}
    (h : ops <+: r.2.ops) (hf : ∀ w, (fails w).2.ops = w.ops)
    (hn : ∀ w, ops <+: w.ops → ops <+: (next w).2.ops) :
    ops <+: (match r with
      | (false, w) => fails w
      | (true, w) => next w).2.ops := by
  rcases r with ⟨_ | _, w⟩
  · rw [hf]
    exact h
  · exact hn w h

theorem perform_grows (op : FlashOp) (h : ops <+: w.ops) : ops <+: (w.perform fl op).2.ops := by
  unfold PkgSlotWriter.perform
  split
  · exact h.trans (List.prefix_append _ _)
  · exact h

theorem eraseTo_grows (need : UInt32) (h : ops <+: w.ops) : ops <+: (eraseTo fl w need).2.ops := by
  unfold eraseTo
  dsimp only
  split
  · exact h
  split
  · exact h
  have grows : ops <+: (w.perform fl (.erase (w.slotOff + pkgslotHeader + w.erasedTo)
      (alignUp need pkgslotErase - w.erasedTo))).2.ops := perform_grows _ h
  revert grows
  generalize w.perform fl _ = r
  rcases r with ⟨_ | _, w'⟩ <;> exact id

theorem flushPage_grows (h : ops <+: w.ops) : ops <+: (flushPage fl w).2.ops := by
  unfold flushPage
  dsimp only
  split
  · exact h
  refine grows_step (eraseTo_grows _ h) (fun _ => rfl) fun w h => ?_
  exact @grows_step _ _ _ (fun w => (true, { w with crc := _, pageBase := _, page := [] }))
    (perform_grows _ h) (fun _ => rfl) fun w h => h

theorem bodyAppend_grows (data : List UInt8) (h : ops <+: w.ops) :
    ops <+: (bodyAppend fl w data).2.ops := by
  induction hn : data.length using Nat.strong_induction_on generalizing data w with
  | _ n ih =>
    unfold bodyAppend
    dsimp only
    split
    · exact h
    rename_i more
    split
    · exact h
    rename_i some
    have shorter : (data.drop (min data.length (pkgslotProg.toNat - w.page.length))).length < n := by
      rw [List.length_drop]
      omega
    split
    · refine grows_step (flushPage_grows h) (fun _ => rfl) fun w h => ?_
      exact ih _ shorter _ h rfl
    · exact ih _ shorter _ h rfl

theorem bodyPadTo_grows (dst : UInt32) (h : ops <+: w.ops) :
    ops <+: (bodyPadTo fl w dst).2.ops := by
  unfold bodyPadTo
  split
  · exact bodyAppend_grows _ h
  · exact h

theorem appendArray_grows (data : List UInt8) (h : ops <+: w.ops) :
    ops <+: (appendArray fl w data).2.ops := by
  unfold appendArray
  exact grows_step (bodyPadTo_grows _ h) (fun _ => rfl) fun w h => bodyAppend_grows data h

theorem pkgslotSink_grows (off : UInt32) (data : List UInt8) (h : ops <+: w.ops) :
    ops <+: (pkgslotSink fl w off data).2.ops := by
  unfold pkgslotSink
  split
  · exact h
  split
  · exact h
  split
  · exact h
  exact grows_step (bodyAppend_grows data h) (fun _ => rfl) fun w h => h

theorem calls_grows (calls : List (UInt32 × List UInt8)) (h : ops <+: w.ops) :
    ops <+: (calls.foldl (fun w call => (pkgslotSink fl w call.1 call.2).2) w).ops := by
  induction calls generalizing w with
  | nil => exact h
  | cons call calls ih => exact ih (pkgslotSink_grows call.1 call.2 h)

theorem writeHeader_grows (m : PkgSlotMeta) (h : ops <+: w.ops) :
    ops <+: (writeHeader fl w m).2.ops := by
  unfold writeHeader
  exact grows_step (perform_grows _ h) (fun _ => rfl) fun w h => perform_grows _ h

theorem pkgslotCommit_grows (m : OwnedManifest) (h : ops <+: w.ops) :
    ops <+: (pkgslotCommit fl fw w m).2.ops := by
  unfold pkgslotCommit
  split
  · exact h
  split
  · exact h
  refine grows_step (appendArray_grows _ h) (fun _ => rfl) fun w h => ?_
  refine grows_step (appendArray_grows _ h) (fun _ => rfl) fun w h => ?_
  refine grows_step (appendArray_grows _ h) (fun _ => rfl) fun w h => ?_
  refine grows_step (flushPage_grows h) (fun _ => rfl) fun w h => ?_
  exact grows_step (writeHeader_grows _ h) (fun _ => rfl) fun w h => h

end RPCortex.Slot
