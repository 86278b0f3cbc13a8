import RPCortex.Loader.Preflight

/-! A package that `app_pic_measure` and `pkg_route` send to a slot fits into it. -/

namespace RPCortex.Loader

open Lib Slot Package

variable {env : PicEnv PkgSlotWriter} {src : AppSource} {slotBytes : UInt32}

/-! ### The commit -/

/-- The manifest that `pkgslot_commit` is handed is the one that the install filled. -/
structure Owns (om : OwnedManifest) (m : PicRecipe) : Prop where
  manifest : om.toPicManifest = m.toPicManifest
  got : om.got = m.got
  abs : om.abs = m.abs
  dataInit : om.dataInit = m.dataInit

/-- Up to the next word. -/
def words (n : Nat) : Nat := (n + 3) / 4 * 4

/-- The body of a slot, its arrays on word boundaries. -/
def bodyEnd (ro got abs data : Nat) : Nat :=
  words (words (words ro + 8 * got) + 12 * abs) + data

theorem pkgslotCommit_takes {fw : Firmware} {w : PkgSlotWriter} {om : OwnedManifest}
    (roomy : Roomy slotBytes w) (cursor : w.cursor = om.roSize)
    (room : bodyEnd w.cursor.toNat om.got.length om.abs.length om.dataInit.length + 4096 ≤
      slotBytes.toNat) : (pkgslotCommit acceptAll fw w om).1 = true := by
  unfold bodyEnd words at room
  have got : (PicGotEntry.codec.encodeAll om.got).length = 8 * om.got.length :=
    Codec.length_encodeAll _ _
  have abs : (PicAbs32.codec.encodeAll om.abs).length = 12 * om.abs.length :=
    Codec.length_encodeAll _ _
  unfold pkgslotCommit
  rw [roomy.working, if_neg Bool.false_ne_true, if_neg (not_not.mpr cursor)]
  dsimp only
  rcases @appendArray_takes _ _ (PicGotEntry.codec.encodeAll om.got) roomy (by omega) with
    ⟨ok, roomy₁, fin₁⟩
  generalize appendArray acceptAll w (PicGotEntry.codec.encodeAll om.got) = r at ok roomy₁ fin₁
  rcases r with ⟨b, w₁⟩
  cases ok
  dsimp only at roomy₁ fin₁ ⊢
  rcases @appendArray_takes _ _ (PicAbs32.codec.encodeAll om.abs) roomy₁ (by omega) with
    ⟨ok, roomy₂, fin₂⟩
  generalize appendArray acceptAll w₁ (PicAbs32.codec.encodeAll om.abs) = r at ok roomy₂ fin₂
  rcases r with ⟨b, w₂⟩
  cases ok
  dsimp only at roomy₂ fin₂ ⊢
  rcases @appendArray_takes _ _ (om.dataInit) roomy₂ (by omega) with ⟨ok, roomy₃, fin₃⟩
  generalize appendArray acceptAll w₂ om.dataInit = r at ok roomy₃ fin₃
  rcases r with ⟨b, w₃⟩
  cases ok
  dsimp only at roomy₃ fin₃ ⊢
  have inside := roomy₃.inside
  rw [roomy₃.cursor] at inside
  rcases flushPage_acceptAll roomy₃.slot roomy₃.aligned roomy₃.pages roomy₃.fill.le inside with
    ⟨w₄, hw₄, -⟩
  rw [hw₄]
  rfl

/-! ### What is measured -/

/-- The body that is reserved for an object with `slots` GOT slots, without bound. -/
def bodyNeed (symbolCount : UInt32) (slots : Nat) (l : PicLayout) : Nat :=
  bodyEnd (l.veneerOff.toNat + (l.veneerCap symbolCount).toNat) slots l.absCap.toNat
    l.dataSize.toNat

/-- The pre-flight counts what the install does: a symbol that is reached through the GOT is reached
by a relocation section whose target takes memory, and the layout of the RAM half, the bound on the
body and its rounding to a program page stay below `2 ^ 32`. -/
def preflightFits (symbolCount : UInt32) (src : AppSource) : Bool :=
  ramLayoutFits src && match readEhdr src with
    | .error _ => true
    | .ok eh => match readSections src eh with
      | none => true
      | some sh =>
        let got := gotSymbols src (symbolsOf sh) sh
        gotSymbols src (symbolsOf sh) (sh.filter (placedTarget sh)) = got &&
          bodyNeed symbolCount got.card (layOut (.ofNat (4 * got.card)) sh) + 255 < 2 ^ 32

variable {pm : PicMeasure}

theorem readObject_layout {sh : List Elf32Shdr} {eh : Elf32Ehdr} (he : readEhdr src = .ok eh)
    (hs : readSections src eh = some sh)
    (room : 4 * (gotSymbols src (symbolsOf sh) sh).card + 63 < 2 ^ 32) :
    Ensures (readObject env src) fun r => r.2.layout =
      layOut (.ofNat (4 * (gotSymbols src (symbolsOf sh) sh).card)) sh := by
  unfold readObject
  refine Ensures.bind (P := fun e => readEhdr src = .ok e) (fun _ h => h) fun e he' => ?_
  rw [he] at he'
  cases he'
  split
  · exact Ensures.throw
  rename_i sh' hs'
  rw [hs] at hs'
  cases hs'
  refine Ensures.bind (P := fun _ => True) (fun _ _ => trivial) fun hdr _ => ?_
  refine Ensures.bind (P := fun tables => tables.1.size / 16 = symbolsOf sh) ?_ ?_
  · intro tables ht
    unfold readSymtab at ht
    split at ht
    · cases ht
    rename_i symtab found
    split at ht
    · cases ht
    cases ht
    unfold symbolsOf
    rw [found]
  rintro ⟨symtab, strtab⟩ nsyms
  dsimp only at nsyms ⊢
  rw [nsyms]
  refine (readGot_ok room).bind fun gotBytes size => ?_
  have same : gotBytes = .ofNat (4 * (gotSymbols src (symbolsOf sh) sh).card) := by
    apply UInt32.toNat_inj.mp
    rw [UInt32.toNat_ofNat', size]
    omega
  rw [← same]
  exact Ensures.pure rfl

/-- The figures of a supported object are those of the layout that the install derives. -/
theorem measure_layOut {symbolCount gotBytes : UInt32} {sc : PicScan} {sh : List Elf32Shdr}
    (got : alignUp (UInt32.ofNat sc.seen.length * 4) 4 = gotBytes)
    (abs : sc.absCap = (layOut gotBytes sh).absCap) :
    (measure symbolCount sc sh).ramSize = (layOut gotBytes sh).ramSize ∧
      (measure symbolCount sc sh).bodyBound =
        alignUp (alignUp (alignUp
          ((layOut gotBytes sh).veneerOff + (layOut gotBytes sh).veneerCap symbolCount) 4 +
            UInt32.ofNat sc.seen.length * 8) 4 + (layOut gotBytes sh).absCap * 12) 4 +
          (layOut gotBytes sh).dataSize := by
  have ram := foldl_walkRam gotBytes (0xFFFFFFFF, 0) sh (place inBlob 0 sh).1 (length_place _ _ _)
  have blob := foldl_walkBlob 0 sh
  have rels := foldl_countRels gotBytes 0 sh
  unfold measure
  dsimp only
  rw [got, ram, blob, rels, abs]
  exact ⟨rfl, rfl⟩

/-- What is measured of an object that is counted as the install counts it. -/
theorem appPicMeasure_ok (fits : preflightFits env.symbolCount src = true) :
    Ensures (appPicMeasure env src) fun pm => pm.pic = true →
      ∃ eh sh l, readEhdr src = .ok eh ∧ readSections src eh = some sh ∧
        4 * (gotSymbols src (symbolsOf sh) sh).card + 63 < 2 ^ 32 ∧
        l = layOut (.ofNat (4 * (gotSymbols src (symbolsOf sh) sh).card)) sh ∧
        pm.ramSize = l.ramSize ∧ pm.bodyBound.toNat + 255 < 2 ^ 32 ∧
        pm.bodyBound.toNat =
          bodyNeed env.symbolCount (gotSymbols src (symbolsOf sh) sh).card l := by
  unfold appPicMeasure
  refine Ensures.bind (P := fun eh => readEhdr src = .ok eh) (fun _ h => h) fun eh he => ?_
  split
  · exact Ensures.throw
  rename_i sh hs
  refine Ensures.bind (P := fun sc => scanObject env src sh = .ok sc) (fun _ h => h) ?_
  intro sc scan
  refine Ensures.pure fun pic => ?_
  have pic : sc.supported = true ∧ UInt32.ofNat sc.seen.length ≠ 0 := by
    simpa [measure] using pic
  have some : sc.seen ≠ [] := by
    intro none
    rw [none] at pic
    exact pic.2 rfl
  unfold preflightFits at fits
  simp only [he, hs, Bool.and_eq_true, decide_eq_true_eq] at fits
  rcases fits with ⟨ram, counted, need⟩
  generalize hl : layOut (.ofNat (4 * (gotSymbols src (symbolsOf sh) sh).card)) sh = l at need
  rcases scanObject_ok scan pic.1 some
    (.ofNat (4 * (gotSymbols src (symbolsOf sh) sh).card)) with ⟨abs, seen⟩
  rw [counted] at seen
  refine ⟨eh, sh, l, he, hs, ?_, hl.symm, ?_⟩
  · unfold bodyNeed bodyEnd words at need
    omega
  generalize (gotSymbols src (symbolsOf sh) sh).card = slots at seen need hl abs ⊢
  have four : (4 : UInt32).toNat = 4 := rfl
  have eight : (8 : UInt32).toNat = 8 := rfl
  have twelve : (12 : UInt32).toNat = 12 := rfl
  have large := need
  unfold bodyNeed bodyEnd words at large
  have count : (UInt32.ofNat sc.seen.length).toNat = slots := by
    rw [UInt32.toNat_ofNat', seen]
    omega
  have bytes : alignUp (UInt32.ofNat sc.seen.length * 4) 4 = .ofNat (4 * slots) := by
    apply UInt32.toNat_inj.mp
    rw [toNat_alignUp (k := 2) rfl (by rw [UInt32.toNat_mul, count, four]; omega),
      UInt32.toNat_mul, count, four, UInt32.toNat_ofNat']
    omega
  rcases @measure_layOut env.symbolCount _ _ _ bytes abs with ⟨size, bound⟩
  rw [hl] at size bound
  have aligned : ∀ v : UInt32, v.toNat + 3 < 2 ^ 32 → (alignUp v 4).toNat = words v.toNat :=
    fun v h => toNat_alignUp (k := 2) rfl h
  have ro : (l.veneerOff + l.veneerCap env.symbolCount).toNat =
      l.veneerOff.toNat + (l.veneerCap env.symbolCount).toNat := by
    rw [UInt32.toNat_add]
    omega
  generalize l.veneerOff + l.veneerCap env.symbolCount = b₀ at ro bound
  have got : (alignUp b₀ 4 + UInt32.ofNat sc.seen.length * 8).toNat =
      words b₀.toNat + 8 * slots := by
    rw [UInt32.toNat_add, UInt32.toNat_mul, count, eight, aligned b₀ (by omega)]
    unfold words
    omega
  generalize alignUp b₀ 4 + UInt32.ofNat sc.seen.length * 8 = b₁ at got bound
  have abs' : (alignUp b₁ 4 + l.absCap * 12).toNat = words b₁.toNat + 12 * l.absCap.toNat := by
    unfold words at got
    rw [UInt32.toNat_add, UInt32.toNat_mul, twelve, aligned b₁ (by omega)]
    unfold words
    omega
  generalize alignUp b₁ 4 + l.absCap * 12 = b₂ at abs' bound
  have data : (alignUp b₂ 4 + l.dataSize).toNat = words b₂.toNat + l.dataSize.toNat := by
    unfold words at got abs'
    rw [UInt32.toNat_add, aligned b₂ (by omega)]
    unfold words
    omega
  have total : (measure env.symbolCount sc sh).bodyBound.toNat = bodyNeed env.symbolCount slots l := by
    rw [bound, data, abs', got, ro]
    rfl
  exact ⟨size, by rw [total]; exact need, total⟩

/-! ### The route -/

/-- A body that is routed to a slot ends inside it. -/
theorem pkgRoute_slot {i : PkgRouteIn} (h : pkgRoute i = .slot) (size : 4096 < i.slotBytes.toNat)
    (small : i.needBytes.toNat + 255 < 2 ^ 32) :
    i.needBytes.toNat + 4096 ≤ i.slotBytes.toNat := by
  have header : pkgslotHeader.toNat = 4096 := rfl
  have larger : ¬i.slotBytes ≤ pkgslotHeader := by
    intro le
    have le := UInt32.le_iff_toNat_le.mp le
    omega
  have body : (i.slotBytes - pkgslotHeader).toNat = i.slotBytes.toNat - 4096 :=
    UInt32.toNat_sub_of_le _ _ (UInt32.le_iff_toNat_le.mpr (by omega))
  have need : (alignUp i.needBytes pkgslotProg).toNat = (i.needBytes.toNat + 255) / 256 * 256 :=
    toNat_alignUp (k := 8) rfl small
  have capacity : (pkgslotBodyCapacity i.slotBytes).toNat ≤ i.slotBytes.toNat - 4096 := by
    unfold pkgslotBodyCapacity
    rw [if_neg larger, toNat_alignDown (k := 8) _ rfl, body]
    omega
  unfold pkgRoute at h
  split at h
  · cases h
  split at h
  · cases h
  split at h
  · cases h
  rename_i inside
  have inside := UInt32.le_iff_toNat_le.mp (UInt32.not_lt.mp inside)
  omega

theorem pkgslotBegin_roomy {slotOff : UInt32} {w : PkgSlotWriter}
    (h : pkgslotBegin acceptAll slotOff slotBytes = (true, w)) :
    Roomy slotBytes w ∧ w.cursor = 0 := by
  rcases pkgslotBegin_cases acceptAll slotOff slotBytes with ⟨refused, -⟩ | ⟨larger, aligned, begun⟩
  · rw [h] at refused
    cases refused
  · rw [h] at begun
    cases begun
    refine ⟨⟨rfl, rfl, aligned, larger, rfl, ?_, rfl, ?_⟩, rfl⟩
    · show 0 < 256
      omega
    · show 0 + 4096 ≤ _
      omega

/-- No write of the install is refused, so that it ends as it would whatever else a refusal did; the
commit takes what it is handed; the RAM block that they record is the one that was measured. -/
def PreflightSound (fw : Firmware) (env : PicEnv PkgSlotWriter) (src : AppSource)
    (namebuf : List UInt8) (pm : PicMeasure) (w : PkgSlotWriter) : Prop :=
  (∀ sink, AgreesWithSlot sink → appPicInstall { env with sink := sink } src namebuf w =
    appPicInstall (toSlot env) src namebuf w) ∧
  ∀ m w', appPicInstall (toSlot env) src namebuf w = .ok (m, w') → m.ramSize = pm.ramSize ∧
    (∃ om, Owns om m) ∧ ∀ om, Owns om m → (pkgslotCommit acceptAll fw w' om).1 = true

/-- The manifest that an install leaves owns its arrays, and its commit is inside the body that was
reserved. -/
theorem Leaves.commit {fw : Firmware} {symbolCount : UInt32} {slots : Nat} {l : PicLayout}
    {dataInit : List UInt8} {r : PicRecipe × PkgSlotWriter}
    (h : Leaves symbolCount slotBytes l dataInit r) (len : dataInit.length = l.dataSize.toNat)
    (got : l.gotBytes.toNat = 4 * slots)
    (room : bodyNeed symbolCount slots l + 4096 ≤ slotBytes.toNat) :
    r.1.ramSize = l.ramSize ∧ (∃ om, Owns om r.1) ∧
      ∀ om, Owns om r.1 → (pkgslotCommit acceptAll fw r.2 om).1 = true := by
  rcases r with ⟨m, w⟩
  rcases h with ⟨hdr, entryOff, st, sink, counted, hm, roomy, cursor⟩
  dsimp only at hm roomy cursor ⊢
  have lt := slotBytes.toNat_lt
  have veneers := counted.veneers
  have slots_le := counted.got
  have abs_le := counted.abs
  unfold bodyNeed bodyEnd words at room
  have gotCount : (UInt32.ofNat st.got.length).toNat = st.got.length := by
    rw [UInt32.toNat_ofNat']
    omega
  have absCount : (UInt32.ofNat st.abs.length).toNat = st.abs.length := by
    rw [UInt32.toNat_ofNat']
    omega
  rw [hm]
  refine ⟨rfl, ?_, ?_⟩
  · refine ⟨{ (recipe hdr l st dataInit entryOff).toPicManifest with
      got := st.got
      abs := st.abs
      dataInit := dataInit
      got_length := gotCount.symm
      abs_length := absCount.symm
      dataInit_length := len
      got_fits := ?_
      abs_fits := ?_ }, ⟨rfl, rfl, rfl, rfl⟩⟩
    · show 8 * (UInt32.ofNat st.got.length).toNat < 2 ^ 32
      omega
    · show 12 * (UInt32.ofNat st.abs.length).toNat < 2 ^ 32
      omega
  · intro om owns
    have roSize : om.roSize = l.veneerOff + veneerUsed st.veneers := by rw [owns.manifest]; rfl
    have bytes : veneerBytes.toNat = 16 := rfl
    have used : (veneerUsed st.veneers).toNat = 16 * st.veneers.length := by
      rw [veneerUsed, UInt32.toNat_mul, UInt32.toNat_ofNat', bytes]
      omega
    refine pkgslotCommit_takes roomy ?_ ?_
    · apply UInt32.toNat_inj.mp
      rw [roSize, UInt32.toNat_add, cursor, used]
      omega
    · rw [owns.got, owns.abs, owns.dataInit]
      show bodyEnd _ st.got.length st.abs.length dataInit.length + 4096 ≤ _
      unfold bodyEnd words
      omega

/-- What the pre-flight accepts is installed and committed in the room that the slot has, with the
RAM block that was measured, when the pre-flight counts what the install does. -/
theorem preflight_sound {fw : Firmware} {namebuf : List UInt8} {svc slotFree : Bool}
    {slotOff : UInt32} {pm : PicMeasure} {w : PkgSlotWriter}
    (fits : preflightFits env.symbolCount src = true) (measured : appPicMeasure env src = .ok pm)
    (pic : pm.pic = true)
    (route : pkgRoute ⟨pm.pic, svc, slotFree, slotBytes, pm.bodyBound⟩ = .slot)
    (begun : pkgslotBegin acceptAll slotOff slotBytes = (true, w)) :
    PreflightSound fw env src namebuf pm w := by
  rcases appPicMeasure_ok fits pm measured pic with
    ⟨eh, sh, l, he, hs, small, hl, ram, bound, need⟩
  rcases pkgslotBegin_roomy begun with ⟨roomy, start⟩
  have room : pm.bodyBound.toNat + 4096 ≤ slotBytes.toNat := pkgRoute_slot route roomy.header bound
  rw [need] at room
  have ramFits : ramLayoutFits src = true := by
    unfold preflightFits at fits
    exact (Bool.and_eq_true _ _ ▸ fits).1
  have got : l.gotBytes.toNat = 4 * (gotSymbols src (symbolsOf sh) sh).card := by
    rw [hl]
    show (UInt32.ofNat _).toNat = _
    rw [UInt32.toNat_ofNat']
    omega
  have body : l.veneerOff.toNat + (l.veneerCap env.symbolCount).toNat + 4096 ≤
      slotBytes.toNat := by
    unfold bodyNeed bodyEnd words at room
    omega
  have object : Ensures (readObject (toSlot env) src) fun r => r.2.layout = l ∧ r.2.layout.Fits := by
    intro r hr
    refine ⟨?_, readObject_fits ramFits r hr⟩
    rw [hl]
    exact readObject_layout he hs small r hr
  constructor
  · intro sink agrees
    unfold appPicInstall
    have same : readObject { env with sink := sink } src = readObject (toSlot env) src := rfl
    rw [same]
    cases ho : readObject (toSlot env) src with
    | error e => rfl
    | ok r =>
      rcases object r ho with ⟨layout, fits⟩
      rw [← layout] at body
      exact (installObject_sinks agrees fits body roomy start).1
  · intro m w' done
    have ends : Ensures (appPicInstall (toSlot env) src namebuf w) fun r =>
        ∃ dataInit, dataInit.length = l.dataSize.toNat ∧
          Leaves env.symbolCount slotBytes l dataInit r := by
      refine object.bind ?_
      rintro ⟨hdr, o⟩ ⟨layout, fits⟩
      dsimp only at layout fits ⊢
      rw [← layout] at body ⊢
      exact (installObject_sinks (fun _ _ _ _ => rfl) fits body roomy start).2
    rcases ends _ done with ⟨dataInit, len, leaves⟩
    have commit := @Leaves.commit _ fw _ _ _ _ _ leaves len got room
    exact ⟨commit.1.trans ram.symm, commit.2⟩

/-! ### A package with a stray relocation section -/

theorem size_elfIdent : (#[0x7F, 0x45, 0x4C, 0x46, 1, 1, 1, 0, 0, 0, 0, 0, 0, 0, 0, 0] :
    Array UInt8).size = 16 := rfl

/-- An object with a GOT, 28 bytes of `.data` and two relocation sections.  The first one is against
section 1, the second one against section `stray`. -/
def strayObject (stray : UInt32) : AppSource where
  bytes :=
    Elf32Ehdr.codec.encode
      { ident := ⟨#[0x7F, 0x45, 0x4C, 0x46, 1, 1, 1, 0, 0, 0, 0, 0, 0, 0, 0, 0], size_elfIdent⟩
        type := 1, machine := 40, version := 1, entry := 0, phoff := 0, shoff := 224, flags := 0
        ehsize := 52, phentsize := 0, phnum := 0, shentsize := 40, shnum := 8, shstrndx := 5 } ++
    RpcAppHeader.codec.encode
      { magic := 0x52504341, apiMajor := 1, apiMinor := 24, name := Vector.replicate 24 0
        version := Vector.replicate 12 0, flags := 0 } ++
    List.replicate 28 0 ++
    Elf32Sym.codec.encode ⟨0, 0, 0, 0, 0, 0⟩ ++ Elf32Sym.codec.encode ⟨1, 0, 4, 0x12, 0, 1⟩ ++
    Elf32Sym.codec.encode ⟨0, 0, 4, 1, 0, 2⟩ ++
    [0] ++ entryName ++ [0, 0, 0] ++ [0] ++ headerName ++ [0, 0, 0, 0] ++
    Elf32Rel.codec.encode ⟨44, 0x11A⟩ ++ Elf32Rel.codec.encode ⟨40, 0x21A⟩ ++
    [sampleSection 0 0 0 0 0 0, sampleSection 1 1 2 52 48 0, sampleSection 0 1 3 100 28 0,
      sampleSection 0 2 0 128 48 4, sampleSection 0 3 0 176 10 0, sampleSection 0 3 0 188 17 0,
      { sampleSection 0 9 0 208 8 3 with info := 1 },
      { sampleSection 0 9 0 216 8 3 with info := stray }].flatMap Elf32Shdr.codec.encode
  size := 544

/-- A firmware without symbols, for an install into a slot. -/
def sampleSlotEnv : PicEnv PkgSlotWriter where
  symbolCount := 0
  indexOf _ := none
  alloc _ _ := true
  sink w _ _ := (false, w)

theorem preflight_sound_stray : PreflightSound anyFirmware sampleSlotEnv (strayObject 1) sampleBuf
    ⟨true, 96, 140, 64, 8⟩ (begunWriter 0 262144) :=
  @preflight_sound sampleSlotEnv (strayObject 1) 262144 anyFirmware sampleBuf true true 0 _ _
    (by decide +kernel) (by decide +kernel) rfl (by decide +kernel) rfl

/-- A relocation section whose target takes no memory: the install counts its GOT slot, the
pre-flight does not. -/
theorem not_preflight_sound :
    ¬∀ fw env src namebuf svc slotFree slotOff slotBytes pm w, appPicMeasure env src = .ok pm →
      pm.pic = true → pkgRoute ⟨pm.pic, svc, slotFree, slotBytes, pm.bodyBound⟩ = .slot →
      pkgslotBegin acceptAll slotOff slotBytes = (true, w) →
      PreflightSound fw env src namebuf pm w := by
  intro h
  have sound := h anyFirmware sampleSlotEnv (strayObject 0) sampleBuf true true 0 262144
    ⟨true, 96, 132, 32, 4⟩ (begunWriter 0 262144) (by decide +kernel) rfl (by decide +kernel) rfl
  have size : (appPicInstall (toSlot sampleSlotEnv) (strayObject 0) sampleBuf
      (begunWriter 0 262144)).toOption.map (fun r => r.1.ramSize) = some 64 := by decide +kernel
  cases hi : appPicInstall (toSlot sampleSlotEnv) (strayObject 0) sampleBuf
      (begunWriter 0 262144) with
  | error e =>
    rw [hi] at size
    cases size
  | ok r =>
    rw [hi] at size
    have size : r.1.ramSize = 64 := Option.some.inj size
    have same := (sound.2 r.1 r.2 hi).1
    rw [size] at same
    exact absurd same (by decide)

end RPCortex.Loader
