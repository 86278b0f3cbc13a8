import RPCortex.Loader.Whole

/-! The page pass of `app_pic_install` against the whole image: what a page has of it is the image with every relocation
applied.  A page that is cut at a site leaves it whole for the next one. -/

namespace RPCortex.Loader

open Lib Slot

/-- The string table ends with a NUL, and its offsets do not wrap. -/
def PicObject.NamesEnd (o : PicObject) : Prop :=
  o.strtab.offset.toNat + o.strtab.size.toNat < 2 ^ 32 ∧
    (o.strtab.size ≠ 0 → o.src.bytes[o.strtab.offset.toNat + o.strtab.size.toNat - 1]? = some 0)

instance (o : PicObject) : Decidable o.NamesEnd := inferInstanceAs (Decidable (_ ∧ (_ → _)))

variable {σ : Type} {env : PicEnv σ} {o : PicObject} {st st' : PicState σ}

/-! ### Names -/

theorem cstr_append {bytes rest : List UInt8} (ends : 0 ∈ bytes) : cstr (bytes ++ rest) = cstr bytes := by
  induction bytes with
  | nil => cases ends
  | cons b bytes ih =>
    unfold cstr at ih ⊢
    rw [List.cons_append, List.takeWhile_cons, List.takeWhile_cons]
    split
    · rename_i more
      refine congrArg (b :: ·) (ih ?_)
      rcases List.mem_cons.mp ends with zero | tail
      · rw [← zero] at more
        cases more
      · exact tail
    · rfl

theorem cstr_set_zero {bytes : List UInt8} : cstr (bytes.set 0 0) = [] := by
  cases bytes with
  | nil => rfl
  | cons b bytes => rfl

/-- A name that is read near the end of the table ends in it. -/
theorem zero_mem_name (ends : o.NamesEnd) {stName : UInt32} {bytes : List UInt8} (inside : stName < o.strtab.size)
    (read : readExact o.src (o.strtab.offset + stName) (o.strtab.size - stName) = some bytes) : 0 ∈ bytes := by
  have inside := UInt32.lt_iff_toNat_lt.mp inside
  have size : (o.strtab.size - stName).toNat = o.strtab.size.toNat - stName.toNat :=
    UInt32.toNat_sub_of_le _ _ (UInt32.le_iff_toNat_le.mpr inside.le)
  have start : (o.strtab.offset + stName).toNat = o.strtab.offset.toNat + stName.toNat := by
    rw [UInt32.toNat_add]
    have := ends.1
    omega
  have last := ends.2 (by
    intro zero
    rw [zero] at inside
    cases inside)
  unfold readExact at read
  split at read
  · rename_i none_
    rw [none_] at size
    have zero : (0 : UInt32).toNat = 0 := rfl
    omega
  split at read
  · cases read
  split at read
  · obtain rfl := Option.some.inj read
    refine List.mem_of_getElem? (i := (o.strtab.size.toNat - stName.toNat) - 1) ?_
    rw [List.getElem?_take, if_pos (by omega), List.getElem?_drop, start, ← last]
    congr 1
    omega
  · cases read

/-- What an earlier name left in the buffer is behind the end of the next one. -/
theorem cstr_symName (ends : o.NamesEnd) {namebuf : List UInt8} (len : namebuf.length = 96) (stName : UInt32) :
    cstr (symName o.src o.strtab namebuf stName) = nameOf o stName := by
  unfold nameOf symName
  split
  · rw [cstr_set_zero, cstr_set_zero]
  rename_i inside
  have inside := UInt32.not_le.mp inside
  dsimp only
  generalize hwant : (if o.strtab.size - stName > 95 then (95 : UInt32) else o.strtab.size - stName) = want
  cases read : readExact o.src (o.strtab.offset + stName) want with
  | none =>
    have cleared (l : List UInt8) : cstr ((l.set 0 0).set 95 0) = [] := by
      cases l with
      | nil => rfl
      | cons b l => rfl
    dsimp only
    rw [cleared, cleared]
  | some bytes =>
    have length := length_readExact read
    dsimp only
    have limit : want.toNat ≤ 95 := by
      rw [← hwant]
      split
      · exact le_rfl
      · exact UInt32.le_iff_toNat_le.mp (UInt32.not_lt.mp ‹_›)
    by_cases full : want.toNat = 95
    · have cut (l : List UInt8) (size : l.length = 96) :
          (bytes ++ l.drop bytes.length).set 95 0 = bytes ++ [0] := by
        rw [List.set_append_right _ _ (by omega), length, full, Nat.sub_self]
        obtain ⟨x, single⟩ := List.length_eq_one_iff.mp (show (l.drop 95).length = 1 by rw [List.length_drop]; omega)
        rw [single]
        rfl
      rw [cut _ len, cut _ List.length_replicate]
    · have whole : want = o.strtab.size - stName := by
        rw [← hwant] at full ⊢
        split
        · rename_i more
          rw [if_pos more] at full
          exact absurd rfl full
        · rfl
      rw [whole] at read
      have zero := zero_mem_name ends inside read
      rw [List.set_append_right _ _ (by omega), List.set_append_right _ _ (by omega), cstr_append zero,
        cstr_append zero]

theorem length_symName {src : AppSource} {strtab : Elf32Shdr} {namebuf : List UInt8} (len : namebuf.length = 96)
    (stName : UInt32) : (symName src strtab namebuf stName).length = 96 := by
  unfold symName
  split
  · rw [List.length_set, len]
  dsimp only
  split
  · rw [List.length_set, List.length_set, len]
  · rename_i bytes read
    have length := length_readExact read
    have limit : bytes.length ≤ 95 := by
      rw [length]
      split
      · exact le_rfl
      · exact UInt32.le_iff_toNat_le.mp (UInt32.not_lt.mp ‹_›)
    rw [List.length_set, List.length_append, List.length_drop, len]
    omega

/-! ### Symbols -/

theorem targetOf_mono {veneers veneers' : List UInt32} {idx : UInt32} {t : PicTarget} (grown : veneers <+: veneers')
    (found : targetOf env o veneers idx = some t) : targetOf env o veneers' idx = some t := by
  unfold targetOf at found ⊢
  cases sym : symAt o.src o.symtab idx with
  | none =>
    rw [sym] at found
    cases found
  | some s =>
    rw [sym] at found
    dsimp only at found ⊢
    split
    · rename_i undef
      rw [if_pos undef] at found
      cases index : env.indexOf (nameOf o s.name) with
      | none =>
        rw [index] at found
        cases found
      | some ix =>
        rw [index] at found
        dsimp only at found ⊢
        obtain ⟨k, at_, rfl⟩ := Option.map_eq_some_iff.mp found
        rw [idxOf?_grown grown at_]
        rfl
    · rename_i undef
      rw [if_neg undef] at found
      exact found

/-- What a state of the passes remembers is so. -/
structure Remembers (env : PicEnv σ) (o : PicObject) (st : PicState σ) : Prop where
  namebuf : st.namebuf.length = 96
  memo : ∀ key m, st.memo key = some m → targetOf env o st.veneers m.idx = some m.target
  distinct : st.veneers.Nodup

/-- Nothing that was numbered is numbered anew. -/
structure Grows (st st' : PicState σ) : Prop where
  veneers : st.veneers <+: st'.veneers
  got : st.got <+: st'.got

theorem Grows.refl (st : PicState σ) : Grows st st := ⟨List.prefix_rfl, List.prefix_rfl⟩

theorem Grows.trans {st'' : PicState σ} (g : Grows st st') (g' : Grows st' st'') : Grows st st'' :=
  ⟨g.veneers.trans g'.veneers, g.got.trans g'.got⟩

theorem idxOf?_append_new {α : Type*} [DecidableEq α] {l : List α} {x : α} (absent : l.idxOf? x = none) :
    (l ++ [x]).idxOf? x = some l.length := by
  unfold List.idxOf? at absent ⊢
  rw [List.findIdx?_append, absent, List.findIdx?_singleton]
  simp

theorem picVeneer_index {cap v index : UInt32} {veneers veneers' : List UInt32}
    (given : picVeneer cap veneers index = some (v, veneers')) (distinct : veneers.Nodup) :
    veneers <+: veneers' ∧ veneers'.Nodup ∧
      (veneers'.idxOf? index).map (fun k => UInt32.ofNat k * veneerBytes) = some v ∧
      veneers' = addNew veneers index := by
  unfold picVeneer at given
  cases found : veneers.idxOf? index with
  | some k =>
    rw [found] at given
    cases given
    have present := List.isSome_idxOf?.mp (Option.isSome_of_eq_some found)
    rw [found]
    exact ⟨List.prefix_rfl, distinct, rfl, (if_pos present).symm⟩
  | none =>
    rw [found] at given
    dsimp only at given
    split at given
    · cases given
    · cases given
      have absent := List.idxOf?_eq_none_iff.mp found
      rw [idxOf?_append_new found]
      refine ⟨List.prefix_append _ _, ?_, rfl, (if_neg absent).symm⟩
      rw [List.nodup_append_comm, List.singleton_append, List.nodup_cons]
      exact ⟨absent, distinct⟩

theorem gotSlot_index {cap off : UInt32} {got got' : List PicGotEntry} {t : PicTarget}
    (given : gotSlot cap got t = some (off, got')) :
    got <+: got' ∧ (got'.idxOf? t.gotEntry).map (fun n => UInt32.ofNat n * 4) = some off ∧
      got' = addNew got t.gotEntry := by
  unfold gotSlot at given
  cases found : got.idxOf? t.gotEntry with
  | some k =>
    rw [found] at given
    cases given
    have present := List.isSome_idxOf?.mp (Option.isSome_of_eq_some found)
    rw [found]
    exact ⟨List.prefix_rfl, rfl, (if_pos present).symm⟩
  | none =>
    rw [found] at given
    dsimp only at given
    split at given
    · cases given
    · cases given
      rw [idxOf?_append_new found]
      exact ⟨List.prefix_append _ _, rfl, (if_neg (List.idxOf?_eq_none_iff.mp found)).symm⟩

/-- What resolving a symbol comes to. -/
structure Resolved (env : PicEnv σ) (o : PicObject) (st : PicState σ) (idx : UInt32) (r : PicTarget × PicState σ) :
    Prop where
  target : targetOf env o r.2.veneers idx = some r.1
  remembers : Remembers env o r.2
  grows : Grows st r.2
  got : r.2.got = st.got
  sink : r.2.sink = st.sink
  numbers : r.2.veneers = numberSym env o st.veneers idx

/-- A symbol that has a target needs no new veneer. -/
theorem numberSym_of_target {veneers : List UInt32} {idx : UInt32} {t : PicTarget}
    (target : targetOf env o veneers idx = some t) : numberSym env o veneers idx = veneers := by
  unfold targetOf at target
  unfold numberSym
  cases sym : symAt o.src o.symtab idx with
  | none => rfl
  | some s =>
    rw [sym] at target
    dsimp only at target ⊢
    split
    · rename_i undef
      rw [if_pos undef] at target
      cases index : env.indexOf (nameOf o s.name) with
      | none => rfl
      | some ix =>
        rw [index] at target
        obtain ⟨k, found, -⟩ := Option.map_eq_some_iff.mp target
        exact if_pos (List.isSome_idxOf?.mp (Option.isSome_of_eq_some found))
    · rfl

theorem resolveSym_resolved (ends : o.NamesEnd) (ok : Remembers env o st) (idx : UInt32) :
    Ensures (resolveSym env o st idx) (Resolved env o st idx) := by
  have same {t : PicTarget} (target : targetOf env o st.veneers idx = some t) : Resolved env o st idx (t, st) :=
    ⟨target, ok, .refl st, rfl, rfl, (numberSym_of_target target).symm⟩
  unfold resolveSym
  cases sym : symAt o.src o.symtab idx with
  | none => exact Ensures.error
  | some s =>
    dsimp only
    split
    · rename_i undef
      cases index : env.indexOf (cstr (symName o.src o.strtab st.namebuf s.name)) with
      | none => exact Ensures.error
      | some ix =>
        dsimp only
        cases given : picVeneer (o.layout.veneerCap env.symbolCount) st.veneers ix with
        | none => exact Ensures.error
        | some r =>
          obtain ⟨v, veneers⟩ := r
          obtain ⟨grown, distinct, number, added⟩ := picVeneer_index given ok.distinct
          obtain ⟨k, at_, rfl⟩ := Option.map_eq_some_iff.mp number
          rw [cstr_symName ends ok.namebuf] at index
          refine Ensures.ok ⟨?_, ⟨length_symName ok.namebuf _, ?_, distinct⟩, ⟨grown, List.prefix_rfl⟩, rfl, rfl,
            ?_⟩
          · simp only [targetOf, sym, if_pos undef, index, at_, Option.map_some]
          · exact fun key m held => targetOf_mono grown (ok.memo key m held)
          · simp only [numberSym, sym, if_pos undef, index, added]
    rename_i undef
    split
    · rename_i abs_
      refine Ensures.ok (same ?_)
      simp only [targetOf, sym, if_neg undef, if_pos abs_]
    rename_i abs_
    cases sec : o.layout.sections[s.shndx.toNat]? with
    | none => exact Ensures.error
    | some sec' =>
      dsimp only
      split
      · exact Ensures.error
      rename_i placed
      split
      · rename_i writable
        refine Ensures.ok (same ?_)
        simp only [targetOf, sym, if_neg undef, if_neg abs_, sec, if_neg placed, if_pos writable]
      · rename_i writable
        refine Ensures.ok (same ?_)
        simp only [targetOf, sym, if_neg undef, if_neg abs_, sec, if_neg placed, if_neg writable]

theorem resolve_resolved (ends : o.NamesEnd) (ok : Remembers env o st) (idx : UInt32) :
    Ensures (resolve env o st idx) (Resolved env o st idx) := by
  have keep (r : PicTarget × PicState σ) (res : Resolved env o st idx r) :
      Resolved env o st idx (r.1, { r.2 with memo := upd r.2.memo idx.toUInt8 (some ⟨idx, r.1⟩) }) := by
    refine ⟨res.target, ⟨res.remembers.namebuf, fun key m held => ?_, res.remembers.distinct⟩,
      ⟨res.grows.veneers, res.grows.got⟩, res.got, res.sink, res.numbers⟩
    simp only [upd_apply] at held
    split at held
    · obtain rfl := Option.some.inj held
      exact res.target
    · exact res.remembers.memo key m held
  unfold resolve
  dsimp only
  cases held : st.memo idx.toUInt8 with
  | none => exact (resolveSym_resolved ends ok idx).bind fun r res => Ensures.pure (keep r res)
  | some m =>
    dsimp only
    split
    · rename_i same
      have target := ok.memo _ _ held
      rw [same] at target
      exact Ensures.ok ⟨target, ok, .refl st, rfl, rfl, (numberSym_of_target target).symm⟩
    · exact (resolveSym_resolved ends ok idx).bind fun r res => Ensures.pure (keep r res)

/-! ### The sites -/

/-- The 32-bit sums of the layout do not wrap: the sections of the blob end before the veneers, and the bytes of those
that have any are below 4 GiB of the file. -/
structure PicObject.BlobFits (o : PicObject) : Prop where
  room : o.layout.veneerOff.toNat + 4096 < 2 ^ 32
  blob : ∀ s ∈ o.layout.sections, inBlob s.hdr = true →
    s.blobOff.toNat + s.hdr.size.toNat ≤ o.layout.veneerOff.toNat
  file : ∀ s ∈ o.layout.sections, inBlob s.hdr = true → s.hdr.type ≠ shtNobits →
    s.hdr.offset.toNat + s.hdr.size.toNat < 2 ^ 32

instance (o : PicObject) : Decidable o.BlobFits :=
  decidable_of_iff (o.layout.veneerOff.toNat + 4096 < 2 ^ 32 ∧
    (∀ s ∈ o.layout.sections, inBlob s.hdr = true →
      s.blobOff.toNat + s.hdr.size.toNat ≤ o.layout.veneerOff.toNat) ∧
    ∀ s ∈ o.layout.sections, inBlob s.hdr = true → s.hdr.type ≠ shtNobits →
      s.hdr.offset.toNat + s.hdr.size.toNat < 2 ^ 32)
    ⟨fun h => ⟨h.1, h.2.1, h.2.2⟩, fun h => ⟨h.room, h.blob, h.file⟩⟩

theorem mem_blobRels {p : PicSection × Elf32Rel} (mem : p ∈ blobRels o) :
    p.1 ∈ o.layout.sections ∧ inBlob p.1.hdr = true := by
  obtain ⟨s, -, mem⟩ := List.mem_flatMap.mp mem
  unfold relsAgainst at mem
  cases target : o.layout.target inBlob s with
  | none =>
    rw [target] at mem
    cases mem
  | some tgt =>
    rw [target] at mem
    obtain ⟨rel, -, rfl⟩ := List.mem_map.mp mem
    unfold PicLayout.target at target
    split at target
    · cases target
    split at target
    · cases target
    · rename_i found
      split at target
      · rename_i half
        obtain rfl := Option.some.inj target
        exact ⟨List.mem_of_getElem? found, half⟩
      · cases target

/-- A site that patches is inside its section. -/
theorem siteOf_inside (fits : o.BlobFits) {p : PicSection × Elf32Rel} (mem : p ∈ blobRels o)
    (patch : patches p = true) :
    p.1.blobOff.toNat ≤ (siteOf p).toNat ∧ (siteOf p).toNat + 4 ≤ p.1.blobOff.toNat + p.1.hdr.size.toNat ∧
      p.1.blobOff.toNat + p.1.hdr.size.toNat ≤ o.layout.veneerOff.toNat := by
  obtain ⟨sec, half⟩ := mem_blobRels mem
  have blob := fits.blob p.1 sec half
  have room := fits.room
  unfold patches at patch
  rw [Bool.and_eq_true, decide_eq_true_eq, decide_eq_true_eq] at patch
  have site : (siteOf p).toNat = p.1.blobOff.toNat + p.2.offset.toNat := by
    unfold siteOf
    rw [UInt32.toNat_add]
    omega
  omega

/-! ### One page -/

/-- One relocation of the page pass, with the test that skips its section. -/
def pageRel (env : PicEnv σ) (o : PicObject) (pos fin : UInt32) (pg : PicPage σ) (p : PicSection × Elf32Rel) :
    Except LoadResult (PicPage σ) :=
  if p.1.blobOff ≥ fin ∨ p.1.blobOff + p.1.hdr.size ≤ pos then .ok pg else applyBlobRel env o pos fin p.1 pg p.2

variable {pos fin : UInt32} {pg pg' : PicPage σ} {p : PicSection × Elf32Rel}

/-- A page is patched by the relocations in the order of the object. -/
theorem patchPage_rels (patched : patchPage env o pos fin pg = .ok pg') :
    (blobRels o).foldlM (pageRel env o pos fin) pg = .ok pg' := by
  unfold patchPage at patched
  unfold blobRels
  generalize o.layout.sections = l at patched ⊢
  induction l generalizing pg with
  | nil => exact patched
  | cons s l ih =>
    rw [List.foldlM_cons] at patched
    rw [List.flatMap_cons, List.foldlM_append, relsAgainst]
    cases target : o.layout.target inBlob s with
    | none =>
      rw [target] at patched
      exact ih patched
    | some tgt =>
      rw [target] at patched
      dsimp only at patched ⊢
      rw [List.foldlM_map]
      split at patched
      · rename_i skipped
        have idle : (relsOf o.src s.hdr).foldlM (fun pg rel => pageRel env o pos fin pg (tgt, rel)) pg = .ok pg := by
          induction relsOf o.src s.hdr with
          | nil => rfl
          | cons rel rels none_ =>
            rw [List.foldlM_cons, pageRel, if_pos skipped]
            exact none_
        rw [idle]
        exact ih patched
      · rename_i skipped
        cases run : forRels o.src s.hdr (applyBlobRel env o pos fin tgt) pg with
        | error e =>
          rw [run] at patched
          cases patched
        | ok pg₁ =>
          rw [run] at patched
          have rels := forRels_ok run
          have same : (fun pg rel => pageRel env o pos fin pg (tgt, rel)) = applyBlobRel env o pos fin tgt := by
            funext pg rel
            rw [pageRel, if_neg skipped]
          rw [same, rels]
          exact ih patched

theorem patchSite_bytes {site type : UInt32} {t : PicTarget} :
    Ensures (patchSite o pos site type t pg) fun pg' =>
      patchBytes pg'.st.got site type t (site - pos).toNat pg.bytes = some pg'.bytes ∧
        pg.st.got <+: pg'.st.got ∧ pg'.st = { pg.st with got := pg'.st.got } ∧
        pg'.patchedTo = pg.patchedTo ∧ pg'.emitEnd = pg.emitEnd ∧
        pg'.st.got = (if type = rArmGotBrel then addNew pg.st.got t.gotEntry else pg.st.got) := by
  unfold patchSite patchBytes
  dsimp only
  split
  · split
    · exact Ensures.error
    · cases slot : gotSlot (o.layout.gotBytes / 4) pg.st.got t with
      | none => exact Ensures.error
      | some r =>
        obtain ⟨off, got⟩ := r
        obtain ⟨grown, number, added⟩ := gotSlot_index slot
        obtain ⟨n, found, rfl⟩ := Option.map_eq_some_iff.mp number
        refine Ensures.ok ⟨?_, grown, rfl, rfl, rfl, ?_⟩
        · rw [found]
          rfl
        · exact added
  split
  · split
    · exact Ensures.error
    split
    · exact Ensures.error
    · exact Ensures.ok ⟨rfl, List.prefix_rfl, rfl, rfl, rfl, rfl⟩
  · exact Ensures.error

/-- Only words inside their section can be patched. -/
theorem patches_of_site {t : PicTarget} {rel : Elf32Rel} {tgt : PicSection} {site : UInt32}
    (ok : relocSiteOk rel.type rel.offset tgt.hdr.size = true) (some_ : rel.type ≠ rArmNone)
    (patched : patchSite o pos site rel.type t pg = .ok pg') : patches (tgt, rel) = true := by
  unfold patches
  rw [Bool.and_eq_true, decide_eq_true_eq, decide_eq_true_eq]
  refine ⟨some_, ?_⟩
  unfold patchSite at patched
  dsimp only at patched
  split at patched
  · rename_i type
    rw [type] at ok
    exact of_decide_eq_true ok
  split at patched
  · rename_i type
    have inside : rel.offset &&& 1 = 0 ∧ rel.offset.toNat + 4 ≤ tgt.hdr.size.toNat := by
      rcases type with type | type <;>
        (rw [type] at ok
         exact ⟨of_decide_eq_true (Bool.and_eq_true _ _ ▸ ok).1, of_decide_eq_true (Bool.and_eq_true _ _ ▸ ok).2⟩)
    exact inside.2
  · cases patched

/-- What one relocation does to a page. -/
structure PageStep (env : PicEnv σ) (o : PicObject) (pos fin : UInt32) (pg : PicPage σ) (p : PicSection × Elf32Rel)
    (pg' : PicPage σ) : Prop where
  remembers : Remembers env o pg'.st
  grows : Grows pg.st pg'.st
  sink : pg'.st.sink = pg.st.sink
  patchedTo : pg.patchedTo.toNat ≤ pg'.patchedTo.toNat
  emitEnd : pg'.emitEnd.toNat ≤ pg.emitEnd.toNat
  inside : patches p = true → pos.toNat ≤ (siteOf p).toNat → (siteOf p).toNat + 4 ≤ fin.toNat →
    (siteOf p).toNat + 4 ≤ pg'.patchedTo.toNat ∧
      (pg'.st.veneers, pg'.st.got) = numberRel env o (pg.st.veneers, pg.st.got) p ∧
      ∃ t, targetOf env o pg'.st.veneers p.2.sym = some t ∧
        patchBytes pg'.st.got (siteOf p) p.2.type t ((siteOf p).toNat - pos.toNat) pg.bytes = some pg'.bytes
  outside : ¬(patches p = true ∧ pos.toNat ≤ (siteOf p).toNat ∧ (siteOf p).toNat + 4 ≤ fin.toNat) →
    pg'.bytes = pg.bytes ∧ pg'.st = pg.st
  straddles : patches p = true → pos.toNat ≤ (siteOf p).toNat → (siteOf p).toNat < fin.toNat →
    fin.toNat < (siteOf p).toNat + 4 → pg'.emitEnd.toNat ≤ (siteOf p).toNat

theorem pageRel_step (ends : o.NamesEnd) (fits : o.BlobFits) (mem : p ∈ blobRels o) (rem : Remembers env o pg.st)
    (below : fin.toNat ≤ o.layout.veneerOff.toNat) :
    Ensures (pageRel env o pos fin pg p) (PageStep env o pos fin pg p) := by
  have room := fits.room
  -- nothing happens to the page
  have idle (none_ : patches p = true → pos.toNat ≤ (siteOf p).toNat → (siteOf p).toNat < fin.toNat → False) :
      PageStep env o pos fin pg p pg :=
    ⟨rem, .refl _, rfl, le_rfl, le_rfl, fun patch after inside => absurd (none_ patch after (by omega)) id,
      fun _ => ⟨rfl, rfl⟩,
      fun patch after before _ => absurd (none_ patch after before) id⟩
  unfold pageRel
  split
  · rename_i skipped
    refine Ensures.ok (idle fun patch after before => ?_)
    obtain ⟨first, last, blob⟩ := siteOf_inside fits mem patch
    rcases skipped with past | before_
    · have past := UInt32.le_iff_toNat_le.mp past
      omega
    · have before_ := UInt32.le_iff_toNat_le.mp before_
      rw [UInt32.toNat_add] at before_
      omega
  unfold applyBlobRel
  split
  · rename_i nothing
    refine Ensures.ok (idle fun patch _ _ => ?_)
    unfold patches at patch
    rw [nothing] at patch
    cases patch
  rename_i some_
  split
  · exact Ensures.error
  rename_i ok
  rw [Bool.not_eq_true', Bool.not_eq_false] at ok
  dsimp only
  rw [show p.1.blobOff + p.2.offset = siteOf p from rfl]
  split
  · rename_i away
    refine Ensures.ok (idle fun _ after before => ?_)
    rcases away with low | high
    · have low := UInt32.lt_iff_toNat_lt.mp low
      omega
    · have high := UInt32.le_iff_toNat_le.mp high
      omega
  rename_i here
  obtain ⟨after, before⟩ := not_or.mp here
  have after := UInt32.le_iff_toNat_le.mp (UInt32.not_lt.mp after)
  have before := UInt32.lt_iff_toNat_lt.mp (UInt32.not_le.mp before)
  have four : (4 : UInt32).toNat = 4 := rfl
  have next : (siteOf p + 4).toNat = (siteOf p).toNat + 4 := by
    rw [UInt32.toNat_add, four]
    omega
  split
  · rename_i over_
    have over_ := UInt32.lt_iff_toNat_lt.mp over_
    rw [next] at over_
    refine Ensures.ok ⟨rem, .refl _, rfl, le_rfl, ?_, fun _ _ inside => absurd inside (by omega),
      fun _ => ⟨rfl, rfl⟩,
      fun _ _ _ _ => ?_⟩
    · dsimp only
      split
      · exact (UInt32.lt_iff_toNat_lt.mp ‹_›).le
      · exact le_rfl
    · dsimp only
      split
      · exact le_rfl
      · exact UInt32.le_iff_toNat_le.mp (UInt32.not_lt.mp ‹_›)
  · rename_i whole
    have whole := UInt32.le_iff_toNat_le.mp (UInt32.not_lt.mp whole)
    rw [next] at whole
    refine (resolve_resolved ends rem p.2.sym).bind fun r res => ?_
    intro pg' done
    obtain ⟨bytes, grown, st_eq, patchedTo, emitEnd, added⟩ := patchSite_bytes pg' done
    have patch := patches_of_site ok some_ done
    dsimp only at bytes grown st_eq patchedTo emitEnd added
    have veneers : pg'.st.veneers = r.2.veneers := by rw [st_eq]
    have off : (siteOf p - pos).toNat = (siteOf p).toNat - pos.toNat :=
      UInt32.toNat_sub_of_le _ _ (UInt32.le_iff_toNat_le.mpr after)
    have reach : pg.patchedTo.toNat ≤ pg'.patchedTo.toNat ∧ (siteOf p).toNat + 4 ≤ pg'.patchedTo.toNat := by
      rw [patchedTo]
      split
      · rename_i more
        have more := UInt32.lt_iff_toNat_lt.mp more
        omega
      · rename_i more
        have more := UInt32.le_iff_toNat_le.mp (UInt32.not_lt.mp more)
        omega
    have remembers : Remembers env o pg'.st := by
      rw [st_eq]
      exact ⟨res.remembers.namebuf, res.remembers.memo, res.remembers.distinct⟩
    have grows : Grows pg.st pg'.st := ⟨by rw [veneers]; exact res.grows.veneers, by rw [← res.got]; exact grown⟩
    refine ⟨remembers, grows, by rw [st_eq]; exact res.sink, reach.1, by rw [emitEnd],
      fun _ _ _ => ⟨reach.2, ?_, r.1, ?_, ?_⟩, fun no => absurd ⟨patch, after, whole⟩ no,
      fun _ _ _ less => absurd less (by omega)⟩
    · simp only [numberRel, ← res.numbers, res.target, veneers, added, res.got]
    · rw [veneers]
      exact res.target
    · rw [← off]
      exact bytes

/-! ### A page and the image -/

/-- One relocation applied to the image, which stays as it is where that fails. -/
def settleRel (env : PicEnv σ) (o : PicObject) (veneers : List UInt32) (got : List PicGotEntry) (image : List UInt8)
    (p : PicSection × Elf32Rel) : List UInt8 :=
  (patchRel env o veneers got image p).getD image

/-- At each of its turns over the relocations, what has become of the image satisfies `P`. -/
def Turns (next : List UInt8 → PicSection × Elf32Rel → List UInt8) (P : List UInt8 → PicSection × Elf32Rel → Prop) :
    List UInt8 → List (PicSection × Elf32Rel) → Prop
  | _, [] => True
  | image, p :: rels => P image p ∧ Turns next P (next image p) rels

theorem Turns.mp {next : List UInt8 → PicSection × Elf32Rel → List UInt8}
    {P P' Q : List UInt8 → PicSection × Elf32Rel → Prop} {image : List UInt8} {rels : List (PicSection × Elf32Rel)}
    (h : Turns next P image rels) (h' : Turns next P' image rels)
    (both : ∀ image, ∀ p ∈ rels, P image p → P' image p → Q image p) : Turns next Q image rels := by
  induction rels generalizing image with
  | nil => trivial
  | cons p rels ih =>
    exact ⟨both image p List.mem_cons_self h.1 h'.1,
      ih h.2 h'.2 fun image p mem => both image p (List.mem_cons_of_mem _ mem)⟩

theorem Turns.of_forall {next : List UInt8 → PicSection × Elf32Rel → List UInt8}
    {P : List UInt8 → PicSection × Elf32Rel → Prop} {rels : List (PicSection × Elf32Rel)}
    (all : ∀ image, ∀ p ∈ rels, P image p) (image : List UInt8) : Turns next P image rels := by
  induction rels generalizing image with
  | nil => trivial
  | cons p rels ih =>
    exact ⟨all image p List.mem_cons_self, ih (fun image p mem => all image p (List.mem_cons_of_mem _ mem)) _⟩

variable {veneers : List UInt32} {got : List PicGotEntry}

/-- Where no turn fails, the relocations apply. -/
theorem foldlM_settle {image : List UInt8} {rels : List (PicSection × Elf32Rel)}
    (turns : Turns (settleRel env o veneers got) (fun image p => (patchRel env o veneers got image p).isSome) image
      rels) :
    rels.foldlM (patchRel env o veneers got) image = some (rels.foldl (settleRel env o veneers got) image) := by
  induction rels generalizing image with
  | nil => rfl
  | cons p rels ih =>
    obtain ⟨image', patched⟩ := Option.isSome_iff_exists.mp turns.1
    have next : settleRel env o veneers got image p = image' := by rw [settleRel, patched, Option.getD_some]
    have rest := turns.2
    rw [next] at rest
    rw [List.foldlM_cons, patched, List.foldl_cons, next]
    exact ih rest

theorem settleRel_outside {image : List UInt8} {a n : Nat}
    (inside : patches p = true → (siteOf p).toNat + 4 ≤ image.length)
    (outside : patches p = true → (siteOf p).toNat + 4 ≤ a ∨ a + n ≤ (siteOf p).toNat) :
    stretch (settleRel env o veneers got image p) a n = stretch image a n ∧
      (settleRel env o veneers got image p).length = image.length := by
  unfold settleRel patchRel
  split
  · rename_i patch
    cases found : targetOf env o veneers p.2.sym with
    | none => exact ⟨rfl, rfl⟩
    | some t =>
      rw [Option.bind_some]
      cases patched : patchBytes got (siteOf p) p.2.type t (siteOf p).toNat image with
      | none => exact ⟨rfl, rfl⟩
      | some image' =>
        obtain ⟨new, four, rfl⟩ := patchBytes_splice patched
        rw [Option.getD_some]
        have room := inside patch
        have away := outside patch
        exact ⟨stretch_splice_outside (by omega) (by omega), length_splice (by omega)⟩
  · exact ⟨rfl, rfl⟩

/-- A relocation in the part of the page that is emitted does to the image what it does to the page. -/
theorem settleRel_inside {image bytes' : List UInt8} {a n : Nat} {t : PicTarget} (patch : patches p = true)
    (target : targetOf env o veneers p.2.sym = some t) (size : a + n ≤ image.length) (page : n ≤ pg.bytes.length)
    (after : a ≤ (siteOf p).toNat) (before : (siteOf p).toNat + 4 ≤ a + n)
    (same : stretch pg.bytes 0 n = stretch image a n)
    (patched : patchBytes got (siteOf p) p.2.type t ((siteOf p).toNat - a) pg.bytes = some bytes') :
    (patchRel env o veneers got image p).isSome = true ∧
      stretch bytes' 0 n = stretch (settleRel env o veneers got image p) a n ∧
      (settleRel env o veneers got image p).length = image.length := by
  have inPage := @patchBytes_stretch got (siteOf p) p.2.type t pg.bytes ((siteOf p).toNat - a) 0 n (by omega) (by omega)
    (by omega)
  rw [patched, Option.map_some, Nat.sub_zero, same, patchBytes_stretch size after before] at inPage
  obtain ⟨image', inImage, eq⟩ := Option.map_eq_some_iff.mp inPage
  have whole : patchRel env o veneers got image p = some image' := by
    rw [patchRel, if_pos patch, target, Option.bind_some, inImage]
  obtain ⟨new, four, rfl⟩ := patchBytes_splice inImage
  rw [settleRel, whole, Option.getD_some]
  exact ⟨rfl, eq.symm, length_splice (by omega)⟩

/-- What the page pass knows of a page under way, up to its final cut at `cut`. -/
structure Tracks (o : PicObject) (pos fin : UInt32) (cut : Nat) (pg : PicPage σ) (image : List UInt8) : Prop where
  size : image.length = o.layout.veneerOff.toNat
  bytes : pg.bytes.length = fin.toNat - pos.toNat
  same : stretch pg.bytes 0 (cut - pos.toNat) = stretch image pos.toNat (cut - pos.toNat)

/-- What the relocations of a page do to what the passes remember, up to the final cut of the page at `cut`. -/
structure PageRun (env : PicEnv σ) (o : PicObject) (pos fin : UInt32) (cut : Nat) (pg : PicPage σ)
    (rels : List (PicSection × Elf32Rel)) (pg' : PicPage σ) : Prop where
  remembers : Remembers env o pg'.st
  grows : Grows pg.st pg'.st
  sink : pg'.st.sink = pg.st.sink
  below : cut ≤ fin.toNat
  reach : pg.patchedTo.toNat ≤ cut
  stop : cut ≤ pg.emitEnd.toNat
  numbers : (pg'.st.veneers, pg'.st.got) = (rels.filter fun p => patches p && pos.toNat ≤ (siteOf p).toNat &&
    (siteOf p).toNat < cut).foldl (numberRel env o) (pg.st.veneers, pg.st.got)

theorem page_run (ends : o.NamesEnd) (fits : o.BlobFits) {rels : List (PicSection × Elf32Rel)}
    (sub : ∀ p ∈ rels, p ∈ blobRels o) (run : rels.foldlM (pageRel env o pos fin) pg = .ok pg')
    (rem : Remembers env o pg.st) (below : fin.toNat ≤ o.layout.veneerOff.toNat) {cut : Nat}
    (emitEnd : pg'.emitEnd.toNat = cut) (inPage : pg.emitEnd.toNat ≤ fin.toNat) (patchedTo : pg'.patchedTo.toNat ≤ cut) :
    PageRun env o pos fin cut pg rels pg' := by
  induction rels generalizing pg with
  | nil =>
    obtain rfl := Except.ok.inj run
    exact ⟨rem, .refl _, rfl, by omega, patchedTo, emitEnd.ge, rfl⟩
  | cons p rels ih =>
    rw [List.foldlM_cons] at run
    cases first : pageRel env o pos fin pg p with
    | error e =>
      rw [first] at run
      cases run
    | ok pg₁ =>
      rw [first] at run
      have step := pageRel_step ends fits (sub p List.mem_cons_self) rem below pg₁ first
      have rest := ih (fun p mem => sub p (List.mem_cons_of_mem _ mem)) run step.remembers (step.emitEnd.trans inPage)
      refine ⟨rest.remembers, step.grows.trans rest.grows, rest.sink.trans step.sink, rest.below,
        step.patchedTo.trans rest.reach, rest.stop.trans step.emitEnd, ?_⟩
      rw [rest.numbers]
      have reach := rest.reach
      have stop := rest.stop
      by_cases here : patches p = true ∧ pos.toNat ≤ (siteOf p).toNat ∧ (siteOf p).toNat + 4 ≤ fin.toNat
      · obtain ⟨reached, number, -⟩ := step.inside here.1 here.2.1 here.2.2
        rw [List.filter_cons_of_pos, List.foldl_cons, number]
        simp only [here.1, decide_eq_true here.2.1, Bool.true_and, decide_eq_true_eq]
        omega
      · rw [List.filter_cons_of_neg, (step.outside here).2]
        simp only [Bool.and_eq_true, decide_eq_true_eq, not_and]
        intro both less
        have past : fin.toNat < (siteOf p).toNat + 4 := by
          by_contra no
          exact here ⟨both.1, both.2, by omega⟩
        have whole := rest.below
        have cutAt := step.straddles both.1 both.2 (by omega) past
        omega

/-- The relocations of a page keep it the image's, and none that falls into it fails. -/
theorem page_tracks (ends : o.NamesEnd) (fits : o.BlobFits) {rels : List (PicSection × Elf32Rel)}
    (sub : ∀ p ∈ rels, p ∈ blobRels o) (run : rels.foldlM (pageRel env o pos fin) pg = .ok pg')
    (rem : Remembers env o pg.st) (below : fin.toNat ≤ o.layout.veneerOff.toNat) {cut : Nat}
    (le : pos.toNat ≤ cut) (emitEnd : pg'.emitEnd.toNat = cut) (inPage : pg.emitEnd.toNat ≤ fin.toNat)
    (patchedTo : pg'.patchedTo.toNat ≤ cut)
    (edge : ∀ p ∈ rels, patches p = true → (siteOf p).toNat < pos.toNat → (siteOf p).toNat + 4 ≤ pos.toNat)
    {image : List UInt8} (hv : pg'.st.veneers <+: veneers) (hg : pg'.st.got <+: got)
    (tracks : Tracks o pos fin cut pg image) :
    Tracks o pos fin cut pg' (rels.foldl (settleRel env o veneers got) image) ∧
      Turns (settleRel env o veneers got) (fun image p => patches p = true → pos.toNat ≤ (siteOf p).toNat →
        (siteOf p).toNat < cut → (patchRel env o veneers got image p).isSome = true ∧ (siteOf p).toNat + 4 ≤ cut)
        image rels := by
  induction rels generalizing pg image with
  | nil =>
    obtain rfl := Except.ok.inj run
    exact ⟨tracks, trivial⟩
  | cons p rels ih =>
    rw [List.foldlM_cons] at run
    cases first : pageRel env o pos fin pg p with
    | error e =>
      rw [first] at run
      cases run
    | ok pg₁ =>
      rw [first] at run
      have step := pageRel_step ends fits (sub p List.mem_cons_self) rem below pg₁ first
      have sub' (p : PicSection × Elf32Rel) (mem : p ∈ rels) := sub p (List.mem_cons_of_mem _ mem)
      have inPage' := step.emitEnd.trans inPage
      have edge' (p : PicSection × Elf32Rel) (mem : p ∈ rels) := edge p (List.mem_cons_of_mem _ mem)
      have rest := page_run ends fits sub' run step.remembers below emitEnd inPage' patchedTo
      have whole := rest.below
      have reach := rest.reach
      have stop := rest.stop
      have inside (patch : patches p = true) : (siteOf p).toNat + 4 ≤ image.length := by
        have := siteOf_inside fits (sub p List.mem_cons_self) patch
        rw [tracks.size]
        omega
      have fitsIn : pos.toNat + (cut - pos.toNat) ≤ image.length := by
        rw [tracks.size]
        omega
      by_cases here : patches p = true ∧ pos.toNat ≤ (siteOf p).toNat ∧ (siteOf p).toNat + 4 ≤ fin.toNat
      · obtain ⟨patch, after, before⟩ := here
        obtain ⟨reached, -, t, target, patched⟩ := step.inside patch after before
        have target' := targetOf_mono (rest.grows.veneers.trans hv) target
        have patched' := patchBytes_mono (rest.grows.got.trans hg) patched
        obtain ⟨some_, same, length⟩ := settleRel_inside (n := cut - pos.toNat) patch target' fitsIn
          (by rw [tracks.bytes]; omega) after (by omega) tracks.same patched'
        have bytes : pg₁.bytes.length = pg.bytes.length := by
          obtain ⟨new, four, eq⟩ := patchBytes_splice patched
          have size := tracks.bytes
          rw [eq, length_splice (by omega)]
        obtain ⟨after', turns⟩ := ih sub' run step.remembers inPage' edge'
          ⟨length.trans tracks.size, bytes.trans tracks.bytes, same⟩
        exact ⟨after', fun _ _ _ => ⟨some_, by omega⟩, turns⟩
      · have bytes := (step.outside here).1
        have outside (patch : patches p = true) : (siteOf p).toNat + 4 ≤ pos.toNat ∨
            pos.toNat + (cut - pos.toNat) ≤ (siteOf p).toNat := by
          by_cases low : (siteOf p).toNat < pos.toNat
          · exact .inl (edge p List.mem_cons_self patch low)
          · right
            by_cases high : (siteOf p).toNat < fin.toNat
            · have past : fin.toNat < (siteOf p).toNat + 4 := by
                by_contra no
                exact here ⟨patch, by omega, by omega⟩
              have cutAt := step.straddles patch (by omega) high past
              omega
            · omega
        obtain ⟨same, length⟩ := @settleRel_outside _ env o p veneers got image _ _ inside outside
        obtain ⟨after', turns⟩ := ih sub' run step.remembers inPage' edge'
          ⟨length.trans tracks.size, by rw [bytes]; exact tracks.bytes, by rw [bytes, tracks.same, same]⟩
        refine ⟨after', fun patch after before => ?_, turns⟩
        rcases outside patch with low | high
        · omega
        · omega

end RPCortex.Loader
