import RPCortex.Loader.Fits

/-! What `app_pic_install` records is safe for `app_pic_load` to use, when the RAM layout of the
object fits.  The GOT recipe and the recorded sites are kept inside their bounds by every
relocation of both passes. -/

namespace RPCortex.Loader

open Lib Slot

/-! ### The size of the GOT -/

/-- The relocations of a section that can be read. -/
def relsOf (src : AppSource) (s : Elf32Shdr) : List Elf32Rel :=
  (List.range s.relCount.toNat).filterMap fun r => relAt src s (.ofNat r)

/-- The relocation takes a slot of the GOT. -/
def reachesGot (nsyms : UInt32) (rel : Elf32Rel) : Bool :=
  rel.type = rArmGotBrel && rel.sym < nsyms

/-- The symbols that the relocations of an object reach through the GOT. -/
def gotSymbols (src : AppSource) (nsyms : UInt32) (sh : List Elf32Shdr) : Finset UInt32 :=
  ((((sh.filter fun s => s.type = shtRel).flatMap (relsOf src)).filter (reachesGot nsyms)).map
    Elf32Rel.sym).toFinset

/-- A loop over relocations that returns has read them all. -/
theorem forRels_ok {α : Type} {src : AppSource} {s : Elf32Shdr}
    {f : α → Elf32Rel → Except LoadResult α} {a b : α} (h : forRels src s f a = .ok b) :
    (relsOf src s).foldlM f a = .ok b := by
  unfold forRels at h
  unfold relsOf
  generalize List.range s.relCount.toNat = l at h ⊢
  induction l generalizing a with
  | nil => exact h
  | cons r l ih =>
    rw [List.foldlM_cons] at h
    rw [List.filterMap_cons]
    cases hr : relAt src s (.ofNat r) with
    | none =>
      rw [hr] at h
      cases h
    | some rel =>
      rw [hr] at h
      rw [List.foldlM_cons]
      cases hf : f a rel with
      | error e =>
        simp only [hf] at h
        cases h
      | ok a' =>
        simp only [hf] at h
        exact ih h

/-- One relocation of the loop that counts GOT slots. -/
def seeRel (nsyms : UInt32) (seen : List UInt32) (rel : Elf32Rel) : List UInt32 :=
  if reachesGot nsyms rel ∧ rel.sym ∉ seen then rel.sym :: seen else seen

theorem seeGot_ok {src : AppSource} {nsyms : UInt32} {seen seen' : List UInt32} {s : Elf32Shdr}
    (h : seeGot src nsyms seen s = .ok seen') (hs : s.type = shtRel) :
    seen' = (relsOf src s).foldl (seeRel nsyms) seen := by
  unfold seeGot at h
  rw [if_neg (not_not.mpr hs)] at h
  have loop := forRels_ok h
  have step : (fun (seen : List UInt32) (rel : Elf32Rel) =>
      (if rel.type ≠ rArmGotBrel then .ok seen
        else if rel.sym < nsyms ∧ rel.sym ∉ seen then .ok (rel.sym :: seen)
        else .ok seen : Except LoadResult (List UInt32))) =
      fun seen rel => pure (seeRel nsyms seen rel) := by
    funext seen rel
    unfold seeRel reachesGot
    by_cases type : rel.type = rArmGotBrel
    · by_cases new : rel.sym < nsyms ∧ rel.sym ∉ seen
      · simp [type, new]
        rfl
      · simp [type, new]
        rfl
    · simp [type]
      rfl
  rw [step, List.foldlM_pure] at loop
  cases loop
  rfl

theorem foldl_seeGot {src : AppSource} {nsyms : UInt32} {seen seen' : List UInt32}
    {sh : List Elf32Shdr} (h : sh.foldlM (seeGot src nsyms) seen = .ok seen') :
    seen' = ((sh.filter fun s => s.type = shtRel).flatMap (relsOf src)).foldl (seeRel nsyms)
      seen := by
  induction sh generalizing seen with
  | nil =>
    cases h
    rfl
  | cons s sh ih =>
    rw [List.foldlM_cons] at h
    cases hs : seeGot src nsyms seen s with
    | error e =>
      rw [hs] at h
      cases h
    | ok next =>
      rw [hs] at h
      by_cases rel : s.type = shtRel
      · rw [List.filter_cons_of_pos (by simpa using rel), List.flatMap_cons, List.foldl_append,
          ← seeGot_ok hs rel]
        exact ih h
      · rw [List.filter_cons_of_neg (by simpa using rel)]
        unfold seeGot at hs
        rw [if_pos rel] at hs
        cases hs
        exact ih h

theorem seeRel_spec {nsyms : UInt32} {rels : List Elf32Rel} {seen : List UInt32}
    (h : seen.Nodup) : (rels.foldl (seeRel nsyms) seen).Nodup ∧
      ∀ x, x ∈ rels.foldl (seeRel nsyms) seen ↔
        x ∈ seen ∨ x ∈ (rels.filter (reachesGot nsyms)).map Elf32Rel.sym := by
  induction rels generalizing seen with
  | nil => simpa using h
  | cons rel rels ih =>
    rw [List.foldl_cons]
    have next : (seeRel nsyms seen rel).Nodup := by
      unfold seeRel
      split
      · exact List.nodup_cons.mpr ⟨(‹_ ∧ _›).2, h⟩
      · exact h
    refine ⟨(ih next).1, ?_⟩
    intro x
    rw [(ih next).2 x]
    unfold seeRel
    by_cases reach : reachesGot nsyms rel = true
    · by_cases old : rel.sym ∈ seen
      · rw [if_neg (by simp [old]), List.filter_cons_of_pos reach, List.map_cons, List.mem_cons]
        constructor
        · tauto
        · rintro (hx | rfl | hx)
          · exact .inl hx
          · exact .inl old
          · exact .inr hx
      · rw [if_pos ⟨reach, old⟩, List.filter_cons_of_pos reach, List.map_cons, List.mem_cons,
          List.mem_cons]
        tauto
    · rw [if_neg (by simp [reach]), List.filter_cons_of_neg reach]

/-- The GOT reserves a word for each symbol that is reached through it. -/
theorem gotBytesOf_ok {src : AppSource} {nsyms gotBytes : UInt32} {sh : List Elf32Shdr}
    (h : gotBytesOf src nsyms sh = .ok gotBytes)
    (fits : 4 * (gotSymbols src nsyms sh).card + 63 < 2 ^ 32) :
    gotBytes.toNat = 4 * (gotSymbols src nsyms sh).card := by
  unfold gotBytesOf at h
  cases hs : sh.foldlM (seeGot src nsyms) [] with
  | error e =>
    rw [hs] at h
    cases h
  | ok seen =>
    rw [hs] at h
    cases h
    have seen_eq := foldl_seeGot hs
    have spec := @seeRel_spec nsyms ((sh.filter fun s => s.type = shtRel).flatMap (relsOf src)) []
      List.nodup_nil
    rw [← seen_eq] at spec
    have count : seen.length = (gotSymbols src nsyms sh).card := by
      rw [← List.toFinset_card_of_nodup spec.1]
      congr 1
      ext x
      rw [List.mem_toFinset, spec.2 x, gotSymbols, List.mem_toFinset]
      simp
    have len : (UInt32.ofNat seen.length).toNat = seen.length := by
      rw [UInt32.toNat_ofNat']
      omega
    have four : (4 : UInt32).toNat = 4 := rfl
    have words : (UInt32.ofNat seen.length * 4).toNat = 4 * seen.length := by
      rw [UInt32.toNat_mul, len, four]
      omega
    rw [toNat_alignUp (k := 2) rfl (by omega)]
    omega

/-! ### What the passes keep -/

variable {σ : Type} {env : PicEnv σ} {o : PicObject} {l : PicLayout} {st : PicState σ}

/-- The GOT recipe is inside the GOT and the recorded sites are inside the RAM half. -/
structure Kept (l : PicLayout) (st : PicState σ) : Prop where
  got : 4 * st.got.length ≤ l.gotBytes.toNat
  sites : ∀ e ∈ st.abs, e.site.toNat + 4 ≤ l.rpos.toNat

/-- Resolving a symbol leaves both recipes alone. -/
theorem resolveSym_recipes (idx : UInt32) :
    Ensures (resolveSym env o st idx) fun r => r.2.got = st.got ∧ r.2.abs = st.abs := by
  unfold resolveSym
  split
  · exact Ensures.error
  dsimp only
  split
  · split
    · exact Ensures.error
    split
    · exact Ensures.error
    · exact Ensures.ok ⟨rfl, rfl⟩
  split
  · exact Ensures.ok ⟨rfl, rfl⟩
  split
  · exact Ensures.error
  split
  · exact Ensures.error
  split
  · exact Ensures.ok ⟨rfl, rfl⟩
  · exact Ensures.ok ⟨rfl, rfl⟩

theorem resolve_recipes (idx : UInt32) :
    Ensures (resolve env o st idx) fun r => r.2.got = st.got ∧ r.2.abs = st.abs := by
  unfold resolve
  dsimp only
  split
  · split
    · exact Ensures.ok ⟨rfl, rfl⟩
    · exact (resolveSym_recipes idx).bind fun r hr => Ensures.pure hr
  · exact (resolveSym_recipes idx).bind fun r hr => Ensures.pure hr

theorem Kept.resolve (h : Kept l st) (idx : UInt32) :
    Ensures (Loader.resolve env o st idx) fun r => Kept l r.2 := by
  refine (resolve_recipes idx).mono ?_
  rintro ⟨t, st'⟩ ⟨got, abs⟩
  exact ⟨by rw [got]; exact h.got, by rw [abs]; exact h.sites⟩

theorem gotSlot_length {gotBytes off : UInt32} {got got' : List PicGotEntry} {t : PicTarget}
    (h : gotSlot (gotBytes / 4) got t = some (off, got')) (hgot : 4 * got.length ≤ gotBytes.toNat) :
    4 * got'.length ≤ gotBytes.toNat := by
  unfold gotSlot at h
  split at h
  · cases h
    exact hgot
  split at h
  · cases h
  rename_i room
  cases h
  have room : (UInt32.ofNat got.length).toNat < (gotBytes / 4).toNat :=
    UInt32.lt_iff_toNat_lt.mp (UInt32.not_le.mp room)
  have four : (4 : UInt32).toNat = 4 := rfl
  have lt := gotBytes.toNat_lt
  rw [UInt32.toNat_div, four, UInt32.toNat_ofNat', Nat.mod_eq_of_lt (by omega)] at room
  rw [List.length_append, List.length_singleton]
  omega

theorem patchSite_kept {pos site type : UInt32} {t : PicTarget} {pg : PicPage σ}
    (h : Kept o.layout pg.st) :
    Ensures (patchSite o pos site type t pg) fun pg' => Kept o.layout pg'.st := by
  unfold patchSite
  dsimp only
  split
  · split
    · exact Ensures.error
    split
    · exact Ensures.error
    · rename_i slot
      exact Ensures.ok ⟨gotSlot_length slot h.got, h.sites⟩
  split
  · split
    · exact Ensures.error
    split
    · exact Ensures.error
    · exact Ensures.ok h
  · exact Ensures.error

theorem applyBlobRel_kept {pos fin : UInt32} {tgt : PicSection} {pg : PicPage σ} {rel : Elf32Rel}
    (h : Kept o.layout pg.st) :
    Ensures (applyBlobRel env o pos fin tgt pg rel) fun pg' => Kept o.layout pg'.st := by
  unfold applyBlobRel
  split
  · exact Ensures.ok h
  split
  · exact Ensures.error
  dsimp only
  split
  · exact Ensures.ok h
  split
  · exact Ensures.ok h
  · exact (h.resolve rel.sym).bind fun r hr => patchSite_kept hr

theorem forRels_ensures {α : Type} {src : AppSource} {s : Elf32Shdr}
    {f : α → Elf32Rel → Except LoadResult α} {I : α → Prop} {init : α} (h : I init)
    (hf : ∀ a rel, I a → Ensures (f a rel) I) : Ensures (forRels src s f init) I := by
  refine Ensures.foldlM h ?_
  intro a ha r _
  split
  · exact Ensures.error
  · exact hf a _ ha

theorem patchPage_kept {pos fin : UInt32} {pg : PicPage σ} (h : Kept o.layout pg.st) :
    Ensures (patchPage env o pos fin pg) fun pg' => Kept o.layout pg'.st := by
  refine Ensures.foldlM (I := fun pg : PicPage σ => Kept o.layout pg.st) h ?_
  intro pg hpg s _
  split
  · exact Ensures.ok hpg
  split
  · exact Ensures.ok hpg
  · exact forRels_ensures (I := fun pg : PicPage σ => Kept o.layout pg.st) hpg
      fun pg rel hpg => applyBlobRel_kept hpg

theorem makePage_kept {pos : UInt32} (h : Kept o.layout st) :
    Ensures (makePage env o st pos) fun pg => Kept o.layout pg.st := by
  unfold makePage
  refine Ensures.bind (P := fun _ => True) (fun _ _ => trivial) ?_
  intro bytes _
  exact patchPage_kept h

/-- The page loop keeps the recipes. -/
theorem pagePass_kept {pos : UInt32} (h : Kept o.layout st) :
    Ensures (pagePass env o st pos) (Kept o.layout) := by
  induction st, pos using pagePass.induct env o with
  | case1 st pos lt e page =>
    unfold pagePass
    rw [if_pos lt, page]
    exact Ensures.error
  | case2 st pos lt pg page stuck =>
    unfold pagePass
    rw [if_pos lt, page]
    simp only [stuck, dite_true]
    exact Ensures.error
  | case3 st pos lt pg page moves overlap =>
    unfold pagePass
    rw [if_pos lt, page]
    simp only [moves, overlap, dite_false, if_true]
    exact Ensures.error
  | case4 st pos lt pg page moves inside sink refused =>
    unfold pagePass
    rw [if_pos lt, page]
    simp only [moves, inside, refused, dite_false, if_false]
    exact Ensures.error
  | case5 st pos lt pg page moves inside sink taken ih =>
    have kept : Kept o.layout pg.st := makePage_kept h pg page
    unfold pagePass
    rw [if_pos lt, page]
    simp only [moves, inside, taken, dite_false, if_false]
    exact ih ⟨kept.got, kept.sites⟩
  | case6 st pos done =>
    unfold pagePass
    rw [if_neg done]
    exact Ensures.ok h

theorem recordAbs_kept (fits : o.layout.Fits) {tgt : PicSection} (mem : tgt ∈ o.layout.sections)
    (half : inRam tgt.hdr = true) {rel : Elf32Rel} (h : Kept o.layout st) :
    Ensures (recordAbs env o tgt st rel) (Kept o.layout) := by
  unfold recordAbs
  split
  · exact Ensures.ok h
  split
  · exact Ensures.error
  rename_i type
  split
  · exact Ensures.error
  rename_i site
  split
  · exact Ensures.error
  refine (h.resolve rel.sym).bind ?_
  rintro ⟨t, st'⟩ kept
  refine Ensures.pure ⟨kept.got, ?_⟩
  intro e he
  rcases List.mem_append.mp he with old | new
  · exact kept.sites e old
  · rw [List.mem_singleton.mp new]
    have word : rel.offset.toNat + 4 ≤ tgt.hdr.size.toNat := by
      rw [Bool.not_eq_true', Bool.not_eq_false] at site
      unfold relocSiteOk at site
      rw [if_pos (by rcases not_and_or.mp type with h | h <;> simp [not_not.mp h])] at site
      simpa using site
    have room := fits.sections tgt mem half
    have fin := fits.fin
    have sum : (tgt.ramOff + rel.offset).toNat = tgt.ramOff.toNat + rel.offset.toNat := by
      rw [UInt32.toNat_add]
      omega
    show (tgt.ramOff + rel.offset).toNat + 4 ≤ _
    omega

/-- The pass over the RAM half records only sites that are inside it. -/
theorem absPass_kept (fits : o.layout.Fits) (h : Kept o.layout st) :
    Ensures (absPass env o st) (Kept o.layout) := by
  refine Ensures.foldlM h ?_
  intro st hst s _
  split
  · exact Ensures.ok hst
  · rename_i tgt target
    have mem : tgt ∈ o.layout.sections ∧ inRam tgt.hdr = true := by
      unfold PicLayout.target at target
      split at target
      · cases target
      split at target
      · cases target
      rename_i found
      split at target
      · rename_i half
        cases target
        exact ⟨List.mem_of_getElem? found, half⟩
      · cases target
    exact forRels_ensures hst fun st rel hst => recordAbs_kept fits mem.1 mem.2 hst

/-! ### Installs -/

theorem recipe_safe (fits : o.layout.Fits) (h : Kept o.layout st) (hdr : RpcAppHeader)
    (dataInit : List UInt8) (entryOff : UInt32) :
    RamSafe (recipe hdr o.layout st dataInit entryOff) where
  data := fits.data.trans fits.ramSize.1
  got := fits.got.trans fits.ramSize.1
  gotWords := h.got
  sites e he := (h.sites e he).trans fits.ramSize.1

theorem finish_safe (fits : o.layout.Fits) (h : Kept o.layout st) (hdr : RpcAppHeader)
    (dataInit : List UInt8) :
    Ensures (finish env hdr o dataInit st) fun r =>
      RamSafe r.1 ∧ r.1.ramSize.toNat + 32 < 2 ^ 32 := by
  unfold finish
  dsimp only
  refine Ensures.ite (fun _ => Ensures.error) fun _ => ?_
  refine Ensures.bind (P := fun _ => True) (fun _ _ => trivial) fun entryOff _ => ?_
  exact Ensures.pure ⟨recipe_safe fits h hdr dataInit entryOff, fits.ramSize.2⟩

/-- The passes over an object whose layout fits record a manifest that is safe to load. -/
theorem installObject_safe (fits : o.layout.Fits) (hdr : RpcAppHeader) (namebuf : List UInt8)
    (sink : σ) :
    Ensures (installObject env hdr o namebuf sink) fun r =>
      RamSafe r.1 ∧ r.1.ramSize.toNat + 32 < 2 ^ 32 := by
  have start : Kept o.layout (⟨namebuf, fun _ => none, [], [], [], sink⟩ : PicState σ) :=
    ⟨Nat.zero_le _, fun e he => nomatch he⟩
  unfold installObject
  refine Ensures.ite (fun _ => Ensures.error) fun _ => ?_
  refine (pagePass_kept start).bind fun st hst => ?_
  refine Ensures.ite (fun _ => Ensures.error) fun _ => ?_
  refine Ensures.bind (P := fun _ => True) (fun _ _ => trivial) fun dataInit _ => ?_
  exact (absPass_kept fits hst).bind fun st hst => finish_safe fits hst hdr dataInit

/-- The RAM layout of the object at `src` fits: a word for each symbol that is reached through the
GOT, then every section of the RAM half. -/
def ramLayoutFits (src : AppSource) : Bool :=
  match readEhdr src with
  | .error _ => true
  | .ok eh => match readSections src eh with
    | none => true
    | some sh => match readSymtab sh with
      | .error _ => true
      | .ok (symtab, _) => ramFits (4 * (gotSymbols src (symtab.size / 16) sh).card) sh

/-- The GOT of an object whose layout fits. -/
theorem readGot_ok {src : AppSource} {nsyms : UInt32} {sh : List Elf32Shdr}
    (room : 4 * (gotSymbols src nsyms sh).card + 63 < 2 ^ 32) :
    Ensures (readGot env src nsyms sh) fun gotBytes =>
      gotBytes.toNat = 4 * (gotSymbols src nsyms sh).card := by
  intro gotBytes got
  unfold readGot at got
  split at got
  · rename_i zero
    cases got
    have none : gotSymbols src nsyms sh = ∅ := by
      rw [zero]
      simp [gotSymbols, reachesGot]
    rw [none]
    rfl
  split at got
  · cases got
  · exact gotBytesOf_ok got room

/-- Before the passes, the layout of the object is known to fit. -/
theorem readObject_fits {src : AppSource} (fits : ramLayoutFits src = true) :
    Ensures (readObject env src) fun r => r.2.layout.Fits := by
  unfold ramLayoutFits at fits
  unfold readObject
  refine Ensures.bind (P := fun eh => readEhdr src = .ok eh) (fun eh heh => heh) fun eh heh => ?_
  split
  · exact Ensures.throw
  rename_i sh hsh
  refine Ensures.bind (P := fun _ => True) (fun _ _ => trivial) fun hdr _ => ?_
  refine Ensures.bind (P := fun tables => readSymtab sh = .ok tables) (fun t ht => ht) ?_
  rintro ⟨symtab, strtab⟩ htables
  rw [heh] at fits
  simp only [hsh, htables] at fits
  refine (readGot_ok (ramFits_le fits)).bind fun gotBytes size => ?_
  rw [← size] at fits
  exact Ensures.pure (layOut_fits fits)

/-- An install of an object whose RAM layout fits records a manifest whose initialisers, GOT and
sites are inside the RAM block, and `app_pic_load` does not write outside the block. -/
theorem appPicInstall_safe {src : AppSource} {namebuf : List UInt8} {sink sink' : σ}
    {m : PicRecipe} (fits : ramLayoutFits src = true)
    (h : appPicInstall env src namebuf sink = .ok (m, sink')) :
    RamSafe m ∧ ∀ alloc gates slot, appPicLoad alloc gates slot m ≠ .ok none := by
  have safe : Ensures (appPicInstall env src namebuf sink) fun r =>
      RamSafe r.1 ∧ r.1.ramSize.toNat + 32 < 2 ^ 32 := by
    refine (readObject_fits fits).bind ?_
    rintro ⟨hdr, o⟩ ho
    exact installObject_safe ho hdr namebuf sink
  rcases safe _ h with ⟨ram, room⟩
  exact ⟨ram, ram.load_inside room⟩

/-! ### A small object -/

/-- A section header with the fields that matter here. -/
def sampleSection (name type flags offset size link : UInt32) : Elf32Shdr :=
  { name, type, flags, addr := 0, offset, size, link, info := 0, addralign := 4, entsize := 0 }

/-- The sections of an object with four bytes of `.data` and a `.bss` of the given size. -/
def sampleSections (bss : UInt32) : List Elf32Shdr :=
  [sampleSection 0 0 0 0 0 0, sampleSection 1 1 2 52 48 0, sampleSection 0 1 3 100 4 0,
    sampleSection 0 8 3 104 bss 0, sampleSection 0 2 0 104 32 5, sampleSection 0 3 0 136 10 0,
    sampleSection 0 3 0 148 17 0]

def sampleHeader (shoff : UInt32) (shnum : UInt16) : Elf32Ehdr :=
  { ident := #v[0x7F, 0x45, 0x4C, 0x46, 1, 1, 1, 0, 0, 0, 0, 0, 0, 0, 0, 0]
    type := 1, machine := 40, version := 1, entry := 0, phoff := 0, shoff, flags := 0
    ehsize := 52, phentsize := 0, phnum := 0, shentsize := 40, shnum, shstrndx := 6 }

/-- Its bytes.  `app_main` is in the section of the package header. -/
def sampleObject (bss : UInt32) : AppSource where
  bytes :=
    Elf32Ehdr.codec.encode (sampleHeader 168 7) ++ RpcAppHeader.codec.encode
      { magic := 0x52504341, apiMajor := 1, apiMinor := 24, name := Vector.replicate 24 0
        version := Vector.replicate 12 0, flags := 0 } ++
    [1, 2, 3, 4] ++
    Elf32Sym.codec.encode ⟨0, 0, 0, 0, 0, 0⟩ ++ Elf32Sym.codec.encode ⟨1, 0, 4, 0x12, 0, 1⟩ ++
    [0] ++ entryName ++ [0, 0, 0] ++ [0] ++ headerName ++ [0, 0, 0, 0] ++
    (sampleSections bss).flatMap Elf32Shdr.codec.encode
  size := 448

/-- A firmware without symbols, with memory for everything and a sink that takes everything. -/
def sampleEnv : PicEnv Unit where
  symbolCount := 0
  indexOf _ := none
  alloc _ _ := true
  sink _ _ _ := (true, ())

/-- A name buffer that nothing has been read into. -/
def sampleBuf : List UInt8 := List.replicate 96 0

theorem sampleObject_installs (bss : UInt32)
    (h : (appPicInstall sampleEnv (sampleObject bss) sampleBuf ()).isOk = true) :
    ∃ m, appPicInstall sampleEnv (sampleObject bss) sampleBuf () = .ok (m, ()) := by
  rcases hi : appPicInstall sampleEnv (sampleObject bss) sampleBuf () with e | ⟨m, _⟩
  · rw [hi] at h
    cases h
  · exact ⟨m, rfl⟩

/-- The same with two relocations: the section of the header takes `app_main` from the GOT, and `.data` holds its
address. -/
def linkedObject : AppSource where
  bytes :=
    Elf32Ehdr.codec.encode (sampleHeader 184 9) ++ ((sampleObject 4).bytes.drop 52).take 116 ++
    Elf32Rel.codec.encode ⟨44, 0x11A⟩ ++ Elf32Rel.codec.encode ⟨0, 0x102⟩ ++
    (sampleSections 4 ++
      [{ sampleSection 0 9 0 168 8 4 with info := 1, entsize := 8 },
        { sampleSection 0 9 0 176 8 4 with info := 2, entsize := 8 }]).flatMap Elf32Shdr.codec.encode
  size := 544

theorem appPicInstall_safe_linked : ∃ m,
    appPicInstall sampleEnv linkedObject sampleBuf () = .ok (m, ()) ∧ RamSafe m ∧
      ∀ alloc gates slot, appPicLoad alloc gates slot m ≠ .ok none := by
  rcases hi : appPicInstall sampleEnv linkedObject sampleBuf () with e | ⟨m, sink⟩
  · have installs : (appPicInstall sampleEnv linkedObject sampleBuf ()).isOk = true := by decide +kernel
    rw [hi] at installs
    cases installs
  · exact ⟨m, rfl, appPicInstall_safe (by decide +kernel) hi⟩

/-- Both relocations are recorded. -/
example : (appPicInstall sampleEnv linkedObject sampleBuf ()).toOption.map
    (fun r => (r.1.gotCount, r.1.absCount)) = some (1, 1) := by decide +kernel

/-- A `.bss` of `2 ^ 32 - 4` bytes wraps the layout: the block is empty, `.data` is not. -/
theorem not_all_installs_safe :
    ¬∀ (σ : Type) (env : PicEnv σ) src namebuf sink sink' m,
      appPicInstall env src namebuf sink = .ok (m, sink') → RamSafe m := by
  intro h
  rcases sampleObject_installs 0xFFFFFFFC (by decide +kernel) with ⟨m, hm⟩
  have data := (h _ _ _ _ _ _ m hm).data
  have sizes : (appPicInstall sampleEnv (sampleObject 0xFFFFFFFC) sampleBuf ()).toOption.map
      (fun r => (r.1.dataSize, r.1.ramSize)) = some (4, 0) := by decide +kernel
  rw [hm] at sizes
  have sizes : (m.dataSize, m.ramSize) = (4, 0) := Option.some.inj sizes
  rw [(Prod.mk.inj sizes).1, (Prod.mk.inj sizes).2] at data
  have four : (4 : UInt32).toNat = 4 := rfl
  have zero : (0 : UInt32).toNat = 0 := rfl
  omega

end RPCortex.Loader
