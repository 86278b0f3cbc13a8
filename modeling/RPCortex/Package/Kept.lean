import RPCortex.Package.Install
import RPCortex.Slot.Grows

/-! What a failing install leaves behind.  The index never changes.  Before the slot is erased, and
before the file is put in its place, nothing changes at all; behind that, the device falls back to
the installed file or keeps what is in the slot. -/

namespace RPCortex.Package

open Lib Slot

variable {fw : Firmware} {o : Outcomes} {d : Device} {file name version : List UInt8}
  {consume slot : Bool}

/-! ### The slot -/

/-- A slot that was not erased is the same. -/
theorem slotWrite_refused (base : Nat → UInt8) (h : (slotWrite fw o base).2.1 = false) :
    (slotWrite fw o base).2.2 = base := by
  unfold slotWrite at h ⊢
  rcases pkgslotBegin_cases o.flash 0 pkgSlotBytes with ⟨-, none⟩ | ⟨-, -, begun⟩
  · rcases hr : pkgslotBegin o.flash 0 pkgSlotBytes with ⟨_ | _, w⟩
    · rw [hr] at none
      simp only [show w.ops = [] from none]
      rfl
    · rw [hr] at h
      dsimp only at h
      split at h <;> cases h
  · rw [begun] at h
    dsimp only at h
    split at h <;> cases h

theorem slotWrite_erased {base : Nat → UInt8} (h : (slotWrite fw o base).1 = true) :
    (slotWrite fw o base).2.1 = true := by
  unfold slotWrite at h ⊢
  split at h
  · cases h
  · dsimp only
    split <;> rfl

/-- A slot that was erased opens only when the write succeeded, and then it reports what was
written. -/
theorem slotWrite_opens {fw' : Firmware} {base : Nat → UInt8} {b : BorrowedManifest}
    (erased : (slotWrite fw o base).2.1 = true)
    (h : pkgslotOpen fw' (slotWrite fw o base).2.2 pkgSlotBytes = .ok b) :
    (slotWrite fw o base).1 = true ∧ ∃ m, o.installed = some m ∧
      Reports (slotWrite fw o base).2.2 b (o.calls.flatMap Prod.snd) m := by
  have space : (0 : UInt32).toNat + pkgSlotBytes.toNat + 4096 < 2 ^ 32 := by decide
  have shift (f : Nat → UInt8) : (fun i => f ((0 : UInt32).toNat + i)) = f :=
    funext fun i => congrArg f (Nat.zero_add i)
  rcases pkgslotBegin_cases o.flash 0 pkgSlotBytes with ⟨failed, none⟩ | ⟨larger, aligned, begun⟩
  · rcases hr : pkgslotBegin o.flash 0 pkgSlotBytes with ⟨_ | _, w⟩ <;> rw [hr] at failed
    · simp [slotWrite, hr] at erased
    · cases failed
  have first : [FlashOp.erase 0 pkgslotHeader] <+: (begunWriter 0 pkgSlotBytes).ops :=
    List.prefix_rfl
  let w := o.calls.foldl (fun w call => (pkgslotSink o.flash w call.1 call.2).2)
    (begunWriter 0 pkgSlotBytes)
  have called : [FlashOp.erase 0 pkgslotHeader] <+: w.ops := calls_grows o.calls first
  cases hm : o.installed with
  | none =>
    -- without a manifest there is no commit
    let t : Target := ⟨0, pkgSlotBytes, base, aligned, larger, space⟩
    have streamed := streamed_begunWriter t
    have sunk : Sunk t (begunWriter t.slotOff t.slotBytes) [] :=
      ⟨streamed.programmed.quiet, fun _ => streamed⟩
    have quiet : Quiet t w.ops := (sunk.calls o.calls).1
    simp only [slotWrite, begun, hm] at h
    refine absurd h (not_open_of_blank fun i hi => ?_)
    have blank := quiet _ List.prefix_rfl (called.ne_nil (List.cons_ne_nil _ _)) i hi
    rwa [Target.mapped, show t.slotOff.toNat + i = i from Nat.zero_add i] at blank
  | some m =>
    have eq : slotWrite fw o base = ((install o.flash fw 0 pkgSlotBytes o.calls m).1, true,
        applyAll base (install o.flash fw 0 pkgSlotBytes o.calls m).2.ops) := by
      simp only [slotWrite, install, begun, hm]
    have ne : (install o.flash fw 0 pkgSlotBytes o.calls m).2.ops ≠ [] := by
      simp only [install, begun]
      exact (pkgslotCommit_grows m called).ne_nil (List.cons_ne_nil _ _)
    rw [eq] at h ⊢
    have opened : pkgslotOpen fw' (fun i => applyAll base
        (install o.flash fw 0 pkgSlotBytes o.calls m).2.ops ((0 : UInt32).toNat + i))
        pkgSlotBytes = .ok b := by
      rw [shift]
      exact h
    have opens := cut_install_opens space List.prefix_rfl ne opened
    rw [shift] at opens
    exact ⟨opens.1, m, rfl, opens.2.2.2⟩

/-! ### The files -/

/-- No package is the index. -/
theorem pkgPath_ne_pkgIndex (name : List UInt8) : pkgIndex ≠ pkgPath name := by
  intro same
  have last := congrArg List.getLast? same
  rw [pkgPath, List.getLast?_append_of_ne_nil _ (by decide)] at last
  exact absurd last (by decide)

theorem created_other {path p : List UInt8} (h : p ≠ path) :
    (created d path).files p = d.files p := by
  unfold created
  split
  · rfl
  · exact upd_ne h

theorem created_slot (path : List UInt8) : (created d path).slot = d.slot := by
  unfold created
  split <;> rfl

/-- A copy changes its target only. -/
theorem storageCopy_other {source target p : List UInt8} {e : CopyEnd} {closed : Bool}
    (h : p ≠ target) : (storageCopy d source target e closed).2.files p = d.files p := by
  unfold storageCopy
  cases d.files source with
  | none => rfl
  | some bytes =>
    cases e <;> cases closed <;> first | rfl | exact created_other h | exact upd_ne h

theorem storageCopy_slot (source target : List UInt8) (e : CopyEnd) (closed : Bool) :
    (storageCopy d source target e closed).2.slot = d.slot := by
  unfold storageCopy
  cases d.files source with
  | none => rfl
  | some bytes => cases e <;> cases closed <;> first | rfl | exact created_slot target

theorem storageRemove_other {path p : List UInt8} {ok : Bool} (h : p ≠ path) :
    (storageRemove d path ok).files p = d.files p := by
  unfold storageRemove
  split
  · exact upd_ne h
  · rfl

theorem storageRemove_slot (path : List UInt8) (ok : Bool) :
    (storageRemove d path ok).slot = d.slot := by
  unfold storageRemove
  split <;> rfl

theorem storageRename_failed {source target : List UInt8} {ok : Bool}
    (h : (storageRename d source target ok).1 ≠ true) :
    (storageRename d source target ok).2 = d := by
  unfold storageRename at h ⊢
  split
  · rename_i done
    rw [if_pos done] at h
    exact absurd rfl h
  · rfl

/-- Putting a file in its place fails: nothing but that place changed. -/
theorem place_failed {dst : List UInt8} (h : (place o d file dst consume).1 = false) :
    (∀ p, p ≠ dst → (place o d file dst consume).2.files p = d.files p) ∧
      (place o d file dst consume).2.slot = d.slot := by
  unfold place at h ⊢
  split
  · exact ⟨fun _ _ => rfl, rfl⟩
  rename_i apart
  rw [if_neg apart] at h
  split
  · rename_i handed
    rw [if_pos handed] at h
    dsimp only at h ⊢
    split
    · rename_i moved
      rw [if_pos moved, moved] at h
      cases h
    · rename_i stays
      rw [storageRename_failed stays]
      exact ⟨fun p hp => (storageCopy_other hp).trans (storageRemove_other hp),
        (storageCopy_slot _ _ _ _).trans (storageRemove_slot _ _)⟩
  · exact ⟨fun p hp => storageCopy_other hp, storageCopy_slot _ _ _ _⟩

/-! ### Failing installs -/

theorem slotView_eq {d' : Device} (h : d'.slot = d.slot) : slotView fw d' = slotView fw d := by
  rw [slotView, slotView, h]

theorem slotView_eq_some {m : BorrowedManifest} (h : slotView fw d = some m) :
    ∃ base, d.slot = some base ∧ pkgslotOpen fw base pkgSlotBytes = .ok m := by
  obtain ⟨base, hb, opened⟩ := Option.bind_eq_some_iff.mp h
  refine ⟨base, hb, ?_⟩
  split at opened
  · rename_i m' hm
    rwa [← Option.some.inj opened]
  · cases opened

/-- Without a slot that opens, the next boot loads the file. -/
theorem nextImage_file (h : slotView fw d = none) :
    nextImage fw d name = (d.files (pkgPath name)).map .file := by
  unfold nextImage
  rw [h]
  cases d.slot <;> rfl

/-- A slot that holds a package is what the next boot loads, whatever the files are. -/
theorem nextImage_holding {d' : Device} (h : slotHolding fw d name = true)
    (same : d'.slot = d.slot) : nextImage fw d' name = nextImage fw d name := by
  unfold slotHolding at h
  split at h
  · rename_i m hm
    obtain ⟨base, hb, -⟩ := slotView_eq_some hm
    have named : text m.header.name = name := by simpa using h
    unfold nextImage
    rw [slotView_eq same, same, hm, hb]
    simp only [if_pos named]
  · cases h

/-- What is left after a failing install: the installed file when the slot was erased and its write
failed, the new package in the slot when only the file is missing, and otherwise the same image. -/
def ImageKept (fw : Firmware) (o : Outcomes) (d d' : Device) : Refusal → Prop
  | .slotWrite true => ∀ name, nextImage fw d' name = (d.files (pkgPath name)).map .file
  | .notPlaced true => ∀ base b, d'.slot = some base → pkgslotOpen fw base pkgSlotBytes = .ok b →
      ∃ m, o.installed = some m ∧ Reports base b (o.calls.flatMap Prod.snd) m
  | .notPlaced false => ∀ name, slotHolding fw d name = true →
      nextImage fw d' name = nextImage fw d name
  | _ => ∀ name, nextImage fw d' name = nextImage fw d name

/-- The index and the image are kept. -/
structure Kept (fw : Firmware) (o : Outcomes) (d d' : Device) (e : Refusal) : Prop where
  version : ∀ name, installedVersion d' name = installedVersion d name
  image : ImageKept fw o d d' e

theorem installedVersion_eq {d' : Device} (h : d'.files pkgIndex = d.files pkgIndex) :
    installedVersion d' name = installedVersion d name := by
  rw [installedVersion, installedVersion, h]

/-- `install_finish` fails only when the file cannot be put in its place. -/
theorem installFinish_failed {e : Refusal}
    (h : (installFinish fw o d file name version consume slot).1 = .error e) :
    e = .notPlaced slot ∧
      (∀ p, p ≠ pkgPath name →
        (installFinish fw o d file name version consume slot).2.files p = d.files p) ∧
      (installFinish fw o d file name version consume slot).2.slot = d.slot := by
  unfold installFinish at h ⊢
  dsimp only at h ⊢
  split
  · rename_i failed
    rw [if_pos failed] at h
    refine ⟨(Except.error.inj h).symm, place_failed (by simpa using failed)⟩
  · rename_i done
    rw [if_neg done] at h
    cases h

/-- A failing write of the slot leaves the slot as it is, or empty. -/
theorem slotWrite_failed {base : Nat → UInt8} (hs : d.slot = some base)
    (failed : (slotWrite fw o base).1 = false) :
    Kept fw o d { d with slot := some (slotWrite fw o base).2.2 }
      (.slotWrite (slotWrite fw o base).2.1) := by
  refine ⟨fun _ => rfl, ?_⟩
  cases erased : (slotWrite fw o base).2.1 with
  | false =>
    rw [slotWrite_refused base erased, ← hs]
    exact fun _ => rfl
  | true =>
    refine fun name => nextImage_file ?_
    cases hv : slotView fw { d with slot := some (slotWrite fw o base).2.2 } with
    | none => rfl
    | some m =>
      obtain ⟨after, ha, opens⟩ := slotView_eq_some hv
      obtain rfl := Option.some.inj ha
      have done := (slotWrite_opens erased opens).1
      exact absurd (failed.symm.trans done) (by decide)

/-- An install that takes the route of the slot and fails to write it. -/
theorem pkgInstallFile_slot {hdr : RpcAppHeader} {base : Nat → UInt8}
    (there : ((d.files file).isNone || !o.opened) = false) (peeked : o.peeked = some hdr)
    (idle : (o.busy && !o.stoodAside) = false)
    (route : routeOf fw o d ((text hdr.name).take 23) = .slot)
    (free : (o.resident && !o.unloaded) = false) (mapped : d.slot = some base)
    (failed : (slotWrite fw o base).1 = false) :
    pkgInstallFile fw o d file consume = (.error (.slotWrite (slotWrite fw o base).2.1),
      { d with slot := some (slotWrite fw o base).2.2 }) := by
  simp only [pkgInstallFile, there, peeked, idle, route, free, mapped, failed,
    Bool.false_eq_true, if_false, if_true, Bool.not_false]

/-- A failing install keeps the version that the index reports, and the image that the next boot
loads as far as the slot was not erased and the file was not being put in its place. -/
theorem pkgInstallFile_failed {e : Refusal}
    (h : (pkgInstallFile fw o d file consume).1 = .error e) :
    Kept fw o d (pkgInstallFile fw o d file consume).2 e := by
  revert h
  unfold pkgInstallFile
  have same {e' : Refusal} (h : (Except.error e' : Except Refusal Unit) = .error e)
      (plain : ImageKept fw o d d e') : Kept fw o d d e :=
    ⟨fun _ => rfl, Except.error.inj h ▸ plain⟩
  split
  · exact fun h => same h fun _ => rfl
  cases o.peeked with
  | none => exact fun h => same h fun _ => rfl
  | some hdr =>
    dsimp only
    split
    · exact fun h => same h fun _ => rfl
    split
    · split
      · exact fun h => same h fun _ => rfl
      cases hs : d.slot with
      | none => exact fun h => same h fun _ => rfl
      | some base =>
        dsimp only
        split
        · rename_i failed
          exact fun h => Except.error.inj h ▸ slotWrite_failed hs (by simpa using failed)
        · rename_i written
          intro h
          obtain ⟨rfl, files, slot⟩ := installFinish_failed h
          refine ⟨fun n => installedVersion_eq (files _ (pkgPath_ne_pkgIndex _)),
            fun after b hb opens => ?_⟩
          obtain rfl := Option.some.inj (slot.symm.trans hb)
          exact (slotWrite_opens (slotWrite_erased (by simpa using written)) opens).2
    · split
      · exact fun h => same h fun _ => rfl
      · intro h
        obtain ⟨rfl, files, slot⟩ := installFinish_failed h
        refine ⟨fun n => installedVersion_eq (files _ (pkgPath_ne_pkgIndex _)), fun n holds => ?_⟩
        exact nextImage_holding holds slot

/-! ### A slot that is lost -/

/-- The header of a package `tiny`. -/
def tinyHeader : RpcAppHeader :=
  { anyHeader with name := #v[0x74, 0x69, 0x6E, 0x79, 0, 0, 0, 0, 0, 0, 0, 0, 0, 0, 0, 0, 0, 0, 0, 0,
      0, 0, 0, 0] }

/-- What the slot records about it. -/
def tinySlot : PkgSlotMeta := { tinyMeta with header := tinyHeader }

/-- A device with `tiny` in the slot and another build of it in `/tmp`. -/
def tinyDevice : Device where
  files := fun path => if path = ascii "/tmp/tiny.app" then some [0] else none
  slot := some (erasedSlot tinySlot)

/-- Everything succeeds but the last reading of the package file, after the erase. -/
def readFailsLate : Outcomes where
  opened := true
  peeked := some tinyHeader
  busy := false
  stoodAside := true
  measured := some ⟨true, 256⟩
  veneerSvc := true
  resident := false
  unloaded := true
  flash := fun _ _ => true
  calls := []
  installed := none
  loaded := true
  removed := true
  renamed := true
  copied := .done
  closed := true
  busyThen := false
  indexBuffer := true
  indexRead := true
  indexRoom := true

theorem slotView_tinyDevice : slotView anyFirmware tinyDevice = some tinySlot.opened := by
  have checked : MetaChecked anyFirmware pkgSlotBytes tinySlot := by constructor <;> decide
  have opens := (stored_erasedSlot (m := tinySlot) rfl).open checked
  have mapped : tinyDevice.slot = some (erasedSlot tinySlot) := rfl
  rw [slotView, mapped, Option.bind_some, opens]

/-- The install returns false, with the slot erased. -/
theorem tinyInstall_failed :
    pkgInstallFile anyFirmware readFailsLate tinyDevice (ascii "/tmp/tiny.app") true =
      (.error (.slotWrite true), { tinyDevice with
        slot := some (slotWrite anyFirmware readFailsLate (erasedSlot tinySlot)).2.2 }) := by
  have named : (text tinyHeader.name).take 23 = ascii "tiny" := by decide
  have available : slotAvailable anyFirmware tinyDevice (ascii "tiny") = true := by
    rw [slotAvailable, slotView_tinyDevice]
    decide
  have route : routeOf anyFirmware readFailsLate tinyDevice (ascii "tiny") = .slot := by
    show pkgRoute ⟨true, true, slotAvailable anyFirmware tinyDevice (ascii "tiny"), pkgSlotBytes,
      256⟩ = .slot
    rw [available]
    decide
  have route : routeOf anyFirmware readFailsLate tinyDevice ((text tinyHeader.name).take 23) =
      .slot := by rw [named, route]
  exact pkgInstallFile_slot rfl rfl rfl route rfl rfl rfl

theorem pkgInstallFile_failed_tiny : Kept anyFirmware readFailsLate tinyDevice
    (pkgInstallFile anyFirmware readFailsLate tinyDevice (ascii "/tmp/tiny.app") true).2
    (.slotWrite true) :=
  pkgInstallFile_failed (congrArg Prod.fst tinyInstall_failed)

/-- `tiny` was in the slot, and nothing is left of it. -/
theorem not_all_images_kept :
    ¬∀ fw o d file consume, (pkgInstallFile fw o d file consume).1 ≠ .ok () →
      ∀ name, nextImage fw (pkgInstallFile fw o d file consume).2 name = nextImage fw d name ∧
        installedVersion (pkgInstallFile fw o d file consume).2 name = installedVersion d name := by
  intro all
  have failed : (pkgInstallFile anyFirmware readFailsLate tinyDevice (ascii "/tmp/tiny.app")
      true).1 ≠ .ok () := by
    rw [tinyInstall_failed]
    exact fun no => nomatch no
  have kept := (all _ _ _ _ _ failed (ascii "tiny")).1
  rw [tinyInstall_failed] at kept
  have before : nextImage anyFirmware tinyDevice (ascii "tiny") =
      some (.slot (erasedSlot tinySlot) tinySlot.opened) := by
    have mapped : tinyDevice.slot = some (erasedSlot tinySlot) := rfl
    have named : text tinySlot.opened.header.name = ascii "tiny" := by decide
    rw [nextImage, slotView_tinyDevice, mapped]
    simp only [if_pos named]
  have gone : tinyDevice.files (pkgPath (ascii "tiny")) = none := by decide
  have lost : ImageKept anyFirmware readFailsLate tinyDevice _ (.slotWrite true) :=
    (slotWrite_failed (d := tinyDevice) (o := readFailsLate) rfl rfl).image
  have after := lost (ascii "tiny")
  rw [gone] at after
  exact absurd (before.symm.trans (kept.symm.trans after)) (by simp)

end RPCortex.Package
