import RPCortex.Loader.Measure
import RPCortex.Slot.Room

/-! What the passes of `app_pic_install` produce is inside the bounds that the layout states: the
pages end at the veneers, the pool and the two recipes stay inside what was reserved for them.  A
slot with that much room takes every write of the install. -/

namespace RPCortex.Loader

open Lib Slot

variable {σ : Type} {env : PicEnv σ} {o : PicObject} {st : PicState σ}

/-! ### The pool and the recipes -/

/-- The veneers and the recipes are inside what is reserved, and the sink has not moved. -/
structure Counted (symbolCount : UInt32) (l : PicLayout) (sink : σ) (st : PicState σ) : Prop where
  veneers : 16 * st.veneers.length ≤ (l.veneerCap symbolCount).toNat
  got : 4 * st.got.length ≤ l.gotBytes.toNat
  abs : st.abs.length ≤ l.absCap.toNat
  sink : st.sink = sink

theorem picVeneer_length {cap v index : UInt32} {veneers veneers' : List UInt32}
    (h : picVeneer cap veneers index = some (v, veneers')) (room : cap.toNat + 16 < 2 ^ 32)
    (hlen : 16 * veneers.length ≤ cap.toNat) : 16 * veneers'.length ≤ cap.toNat := by
  unfold picVeneer at h
  split at h
  · cases h
    exact hlen
  split at h
  · cases h
  rename_i small
  cases h
  have bytes : veneerBytes.toNat = 16 := rfl
  have small := UInt32.le_iff_toNat_le.mp (UInt32.not_lt.mp small)
  rw [veneerUsed, UInt32.toNat_add, UInt32.toNat_mul, UInt32.toNat_ofNat', bytes] at small
  rw [List.length_append, List.length_singleton]
  omega

variable {sink : σ} (room : (o.layout.veneerCap env.symbolCount).toNat + 16 < 2 ^ 32)

include room

theorem resolveSym_counted (h : Counted env.symbolCount o.layout sink st) (idx : UInt32) :
    Ensures (resolveSym env o st idx) fun r => Counted env.symbolCount o.layout sink r.2 := by
  unfold resolveSym
  split
  · exact Ensures.error
  dsimp only
  split
  · split
    · exact Ensures.error
    split
    · exact Ensures.error
    · rename_i v veneers hv
      exact Ensures.ok ⟨picVeneer_length hv room h.veneers, h.got, h.abs, h.sink⟩
  split
  · exact Ensures.ok h
  split
  · exact Ensures.error
  split
  · exact Ensures.error
  split
  · exact Ensures.ok h
  · exact Ensures.ok h

theorem resolve_counted (h : Counted env.symbolCount o.layout sink st) (idx : UInt32) :
    Ensures (resolve env o st idx) fun r => Counted env.symbolCount o.layout sink r.2 := by
  have keep : ∀ (t : PicTarget × PicState σ) memo, Counted env.symbolCount o.layout sink t.2 →
      Counted env.symbolCount o.layout sink { t.2 with memo := memo } :=
    fun _ _ h => ⟨h.veneers, h.got, h.abs, h.sink⟩
  unfold resolve
  dsimp only
  split
  · split
    · exact Ensures.ok h
    · exact (resolveSym_counted room h idx).bind fun r hr => Ensures.pure (keep r _ hr)
  · exact (resolveSym_counted room h idx).bind fun r hr => Ensures.pure (keep r _ hr)

omit room

/-! ### A page -/

/-- A page under way: as long as the stretch of the blob it is for, and cut off inside it. -/
structure PageOk (symbolCount : UInt32) (l : PicLayout) (sink : σ) (pos fin : UInt32)
    (pg : PicPage σ) : Prop where
  counted : Counted symbolCount l sink pg.st
  bytes : pg.bytes.length = fin.toNat - pos.toNat
  cut : pg.emitEnd.toNat ≤ fin.toNat

variable {pos fin : UInt32} {pg : PicPage σ}

theorem patchSite_pageOk {site type : UInt32} {t : PicTarget}
    (h : PageOk env.symbolCount o.layout sink pos fin pg) (le : pos.toNat ≤ site.toNat)
    (inside : site.toNat + 4 ≤ fin.toNat) :
    Ensures (patchSite o pos site type t pg)
      (PageOk env.symbolCount o.layout sink pos fin) := by
  have at_site : (site - pos).toNat = site.toNat - pos.toNat :=
    UInt32.toNat_sub_of_le _ _ (UInt32.le_iff_toNat_le.mpr le)
  have spliced : ∀ new : List UInt8, new.length = 4 →
      (splice pg.bytes (site - pos).toNat new).length = fin.toNat - pos.toNat := by
    intro new len
    rw [length_splice (by rw [at_site, len, h.bytes]; omega), h.bytes]
  unfold patchSite
  dsimp only
  split
  · split
    · exact Ensures.error
    split
    · exact Ensures.error
    · rename_i off got slot
      refine Ensures.ok ⟨⟨h.counted.veneers, gotSlot_length slot h.counted.got, h.counted.abs,
        h.counted.sink⟩, spliced _ ?_, h.cut⟩
      rw [Codec.length_encode]
      rfl
  split
  · split
    · exact Ensures.error
    split
    · exact Ensures.error
    · refine Ensures.ok ⟨h.counted, spliced _ ?_, h.cut⟩
      rw [List.length_append, Codec.length_encode, Codec.length_encode]
      rfl
  · exact Ensures.error

include room in
theorem applyBlobRel_pageOk {tgt : PicSection} {rel : Elf32Rel} (space : fin.toNat + 4 < 2 ^ 32)
    (h : PageOk env.symbolCount o.layout sink pos fin pg) :
    Ensures (applyBlobRel env o pos fin tgt pg rel)
      (PageOk env.symbolCount o.layout sink pos fin) := by
  unfold applyBlobRel
  split
  · exact Ensures.ok h
  split
  · exact Ensures.error
  dsimp only
  split
  · exact Ensures.ok h
  rename_i here
  rcases not_or.mp here with ⟨after, before⟩
  have after := UInt32.le_iff_toNat_le.mp (UInt32.not_lt.mp after)
  have before := UInt32.lt_iff_toNat_lt.mp (UInt32.not_le.mp before)
  have four : (4 : UInt32).toNat = 4 := rfl
  have site : (tgt.blobOff + rel.offset + 4).toNat = (tgt.blobOff + rel.offset).toNat + 4 := by
    rw [UInt32.toNat_add _ 4, four]
    omega
  split
  · refine Ensures.ok ⟨h.counted, h.bytes, ?_⟩
    dsimp only
    split
    · exact before.le
    · exact h.cut
  rename_i whole
  have whole := UInt32.le_iff_toNat_le.mp (UInt32.not_lt.mp whole)
  refine (resolve_counted room h.counted rel.sym).bind fun r hr => ?_
  exact patchSite_pageOk ⟨hr, h.bytes, h.cut⟩ after (by omega)

include room in
theorem patchPage_pageOk (space : fin.toNat + 4 < 2 ^ 32)
    (h : PageOk env.symbolCount o.layout sink pos fin pg) :
    Ensures (patchPage env o pos fin pg) (PageOk env.symbolCount o.layout sink pos fin) := by
  refine Ensures.foldlM h ?_
  intro pg hpg s _
  split
  · exact Ensures.ok hpg
  split
  · exact Ensures.ok hpg
  · exact forRels_ensures hpg fun pg rel hpg => applyBlobRel_pageOk room space hpg

/-- A page is filled from the parts of the sections that are inside it. -/
theorem fillPage_length (le : pos.toNat ≤ fin.toNat) :
    Ensures (fillPage o pos fin) fun bytes => bytes.length = fin.toNat - pos.toNat := by
  have start : (fin - pos).toNat = fin.toNat - pos.toNat :=
    UInt32.toNat_sub_of_le _ _ (UInt32.le_iff_toNat_le.mpr le)
  refine Ensures.foldlM (by rw [List.length_replicate, start]) ?_
  intro page len s _
  split
  · exact Ensures.ok len
  dsimp only
  generalize hlo : (if s.blobOff > pos then s.blobOff else pos) = lo
  generalize hhi : (if s.blobOff + s.hdr.size < fin then s.blobOff + s.hdr.size else fin) = hi
  split
  · exact Ensures.ok len
  rename_i some
  split
  · exact Ensures.error
  rename_i bytes read
  refine Ensures.ok ?_
  have lt := UInt32.lt_iff_toNat_lt.mp (UInt32.not_le.mp some)
  have low : pos.toNat ≤ lo.toNat := by
    rw [← hlo]
    split
    · exact (UInt32.lt_iff_toNat_lt.mp ‹_›).le
    · exact le_rfl
  have high : hi.toNat ≤ fin.toNat := by
    rw [← hhi]
    split
    · exact (UInt32.lt_iff_toNat_lt.mp ‹_›).le
    · exact le_rfl
  have off : (lo - pos).toNat = lo.toNat - pos.toNat :=
    UInt32.toNat_sub_of_le _ _ (UInt32.le_iff_toNat_le.mpr low)
  have size : (hi - lo).toNat = hi.toNat - lo.toNat :=
    UInt32.toNat_sub_of_le _ _ (UInt32.le_iff_toNat_le.mpr lt.le)
  rw [length_splice, len]
  rw [off, length_readExact read, size, len]
  omega

include room in
theorem makePage_pageOk (space : o.layout.veneerOff.toNat + 4096 < 2 ^ 32)
    (lt : pos.toNat < o.layout.veneerOff.toNat)
    (h : Counted env.symbolCount o.layout sink st) :
    Ensures (makePage env o st pos) fun pg => ∃ fin : UInt32,
      fin.toNat ≤ o.layout.veneerOff.toNat ∧ PageOk env.symbolCount o.layout sink pos fin pg := by
  unfold makePage
  dsimp only
  generalize hfin : (if pos + picPage > o.layout.veneerOff then o.layout.veneerOff
    else pos + picPage) = fin
  have page : picPage.toNat = 4096 := rfl
  have next : (pos + picPage).toNat = pos.toNat + 4096 := by
    rw [UInt32.toNat_add, page]
    omega
  have inside : pos.toNat ≤ fin.toNat ∧ fin.toNat ≤ o.layout.veneerOff.toNat := by
    rw [← hfin]
    split
    · exact ⟨lt.le, le_rfl⟩
    · rename_i small
      have small := UInt32.le_iff_toNat_le.mp (UInt32.not_lt.mp small)
      omega
  refine (fillPage_length inside.1).bind fun bytes len => ?_
  have start : PageOk env.symbolCount o.layout sink pos fin
      { st, bytes, patchedTo := pos, emitEnd := fin } := ⟨h, len, le_rfl⟩
  refine (patchPage_pageOk room (by omega) start).mono ?_
  exact fun pg hpg => ⟨fin, inside.2, hpg⟩

/-! ### The pass over the RAM half -/

include room in
theorem recordAbs_counted {tgt : PicSection} {rel : Elf32Rel}
    (h : Counted env.symbolCount o.layout sink st) :
    Ensures (recordAbs env o tgt st rel) (Counted env.symbolCount o.layout sink) := by
  unfold recordAbs
  split
  · exact Ensures.ok h
  split
  · exact Ensures.error
  split
  · exact Ensures.error
  split
  · exact Ensures.error
  rename_i free
  have free := UInt32.lt_iff_toNat_lt.mp (UInt32.not_le.mp free)
  have lt := o.layout.absCap.toNat_lt
  have old := h.abs
  rw [UInt32.toNat_ofNat', Nat.mod_eq_of_lt (by omega)] at free
  have count : ∀ st', Counted env.symbolCount o.layout sink st' → st'.abs = st.abs →
      ∀ e, Counted env.symbolCount o.layout sink { st' with abs := st'.abs ++ [e] } := by
    intro st' h' same e
    refine ⟨h'.veneers, h'.got, ?_, h'.sink⟩
    show (st'.abs ++ [e]).length ≤ _
    rw [same, List.length_append, List.length_singleton]
    omega
  refine Ensures.bind (P := fun r : PicTarget × PicState σ =>
    Counted env.symbolCount o.layout sink r.2 ∧ r.2.abs = st.abs) ?_ ?_
  · intro r hr
    exact ⟨resolve_counted room h rel.sym r hr, (resolve_recipes rel.sym r hr).2⟩
  · rintro ⟨t, st'⟩ ⟨h', same⟩
    exact Ensures.pure (count st' h' same _)

include room in
theorem absPass_counted (h : Counted env.symbolCount o.layout sink st) :
    Ensures (absPass env o st) (Counted env.symbolCount o.layout sink) := by
  refine Ensures.foldlM h ?_
  intro st hst s _
  split
  · exact Ensures.ok hst
  · exact forRels_ensures hst fun st rel hst => recordAbs_counted room hst

/-! ### The initialisers -/

theorem widen_mono (extent : UInt32 × UInt32) (l : List PicSection) :
    (l.foldl PicLayout.widen extent).1.toNat ≤ extent.1.toNat ∧
      extent.2.toNat ≤ (l.foldl PicLayout.widen extent).2.toNat := by
  induction l generalizing extent with
  | nil => exact ⟨le_rfl, le_rfl⟩
  | cons s l ih =>
    rw [List.foldl_cons]
    have step : (PicLayout.widen extent s).1.toNat ≤ extent.1.toNat ∧
        extent.2.toNat ≤ (PicLayout.widen extent s).2.toNat := by
      unfold PicLayout.widen
      split
      · constructor
        · dsimp only
          split
          · exact (UInt32.lt_iff_toNat_lt.mp ‹_›).le
          · exact le_rfl
        · dsimp only
          split
          · exact (UInt32.lt_iff_toNat_lt.mp ‹_›).le
          · exact le_rfl
      · exact ⟨le_rfl, le_rfl⟩
    exact ⟨(ih _).1.trans step.1, step.2.trans (ih _).2⟩

theorem widen_covers {extent : UInt32 × UInt32} {l : List PicSection} {s : PicSection}
    (mem : s ∈ l) (inside : inRam s.hdr = true) (bits : s.hdr.type ≠ shtNobits) :
    (l.foldl PicLayout.widen extent).1.toNat ≤ s.ramOff.toNat ∧
      (s.ramOff + s.hdr.size).toNat ≤ (l.foldl PicLayout.widen extent).2.toNat := by
  induction l generalizing extent with
  | nil => cases mem
  | cons t l ih =>
    rw [List.foldl_cons]
    rcases List.mem_cons.mp mem with rfl | mem
    · have both : inRam s.hdr = true ∧ s.hdr.type ≠ shtNobits := ⟨inside, bits⟩
      have step : (PicLayout.widen extent s).1.toNat ≤ s.ramOff.toNat ∧
          (s.ramOff + s.hdr.size).toNat ≤ (PicLayout.widen extent s).2.toNat := by
        unfold PicLayout.widen
        rw [if_pos both]
        dsimp only
        constructor
        · split
          · exact le_rfl
          · exact UInt32.le_iff_toNat_le.mp (UInt32.not_lt.mp ‹_›)
        · split
          · exact le_rfl
          · exact UInt32.le_iff_toNat_le.mp (UInt32.not_lt.mp ‹_›)
      have mono := widen_mono (PicLayout.widen extent s) l
      exact ⟨mono.1.trans step.1, step.2.trans mono.2⟩
    · exact ih mem

theorem readData_length (fits : o.layout.Fits) :
    Ensures (readData o) fun data => data.length = o.layout.dataSize.toNat := by
  have fin := fits.fin
  refine Ensures.foldlM List.length_replicate ?_
  intro data len s mem
  split
  · exact Ensures.ok len
  rename_i initialised
  split
  · exact Ensures.error
  rename_i bytes read
  rcases not_or.mp initialised with ⟨inside, bits⟩
  have inside : inRam s.hdr = true := by simpa using inside
  have room := fits.sections s mem inside
  have covers := @widen_covers (0xFFFFFFFF, 0) _ _ mem inside bits
  have sum : (s.ramOff + s.hdr.size).toNat = s.ramOff.toNat + s.hdr.size.toNat := by
    rw [UInt32.toNat_add]
    omega
  have bound : (0xFFFFFFFF : UInt32).toNat = 2 ^ 32 - 1 := rfl
  have some : ¬(o.layout.sections.foldl PicLayout.widen (0xFFFFFFFF, 0)).1 = 0xFFFFFFFF := by
    intro none
    rw [none] at covers
    omega
  have extent : o.layout.dataExtent = o.layout.sections.foldl PicLayout.widen (0xFFFFFFFF, 0) :=
    if_neg some
  have size : o.layout.dataSize.toNat = o.layout.dataExtent.2.toNat - o.layout.dataExtent.1.toNat :=
    UInt32.toNat_sub_of_le _ _ (UInt32.le_iff_toNat_le.mpr (by rw [extent]; omega))
  have off : (s.ramOff - o.layout.dataOff).toNat =
      s.ramOff.toNat - o.layout.dataExtent.1.toNat :=
    UInt32.toNat_sub_of_le _ _ (UInt32.le_iff_toNat_le.mpr (by
      show o.layout.dataExtent.1.toNat ≤ _
      rw [extent]
      exact covers.1))
  refine Ensures.ok ?_
  rw [length_splice, len]
  rw [off, length_readExact read, len, size, extent]
  omega

end RPCortex.Loader
