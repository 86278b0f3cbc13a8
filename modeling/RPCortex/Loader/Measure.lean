import RPCortex.Loader.Safety

/-! `app_pic_measure`: what an install would cost, from the section headers and one pass over the
relocations.  Where it supports an object and counts the same GOT, its figures are those of the
layout that `app_pic_install` derives. -/

namespace RPCortex.Loader

open Lib Slot

variable {σ : Type}

/-- `PicMeasure`. -/
structure PicMeasure where
  pic : Bool
  roBound : UInt32
  bodyBound : UInt32
  ramSize : UInt32
  gotBytes : UInt32
  deriving DecidableEq

/-! ### The relocation pass -/

/-- What the pass has found.  `seen` lists the symbols that are reached through the GOT. -/
structure PicScan where
  seen : List UInt32
  absCap : UInt32
  supported : Bool

/-- The types that `app_pic_install` emits, for a target of either half. -/
def emits (writable : Bool) (type : UInt32) : Bool :=
  if writable then type = rArmAbs32 || type = rArmTarget1
  else type = rArmGotBrel || type = rArmThmCall || type = rArmThmJump24

/-- The relocations of one section.  The first one that is not supported ends the pass. -/
def scanRels (src : AppSource) (s : Elf32Shdr) (nsyms : UInt32) (writable : Bool) :
    List Nat → PicScan → Except LoadResult PicScan
  | [], sc => .ok sc
  | r :: rest, sc =>
    match relAt src s (.ofNat r) with
    | none => .error .read
    | some rel =>
      if rel.type = rArmNone then scanRels src s nsyms writable rest sc
      else if !emits writable rel.type then .ok { sc with supported := false }
      else scanRels src s nsyms writable rest { sc with seen := seeRel nsyms sc.seen rel }

/-- The section that `s` patches takes memory. -/
def placedTarget (sh : List Elf32Shdr) (s : Elf32Shdr) : Bool :=
  (sh[s.info.toNat]?).any Elf32Shdr.placed

/-- One section of the pass. -/
def scanSection (src : AppSource) (sh : List Elf32Shdr) (nsyms : UInt32) (sc : PicScan)
    (s : Elf32Shdr) : Except LoadResult PicScan :=
  if !sc.supported then .ok sc
  else if s.type ≠ shtRel then .ok sc
  else if !placedTarget sh s then .ok sc
  else
    let writable := (sh[s.info.toNat]?).any Elf32Shdr.writable
    let sc := if writable then { sc with absCap := sc.absCap + s.relCount } else sc
    scanRels src s nsyms writable (List.range s.relCount.toNat) sc

/-- `nsyms`. -/
def symbolsOf (sh : List Elf32Shdr) : UInt32 :=
  match sh.find? fun s => s.type = shtSymtab with
  | none => 0
  | some symtab => symtab.size / 16

/-- The relocation pass of `app_pic_measure`. -/
def scanObject (env : PicEnv σ) (src : AppSource) (sh : List Elf32Shdr) :
    Except LoadResult PicScan :=
  if symbolsOf sh = 0 then .ok ⟨[], 0, true⟩
  else if !env.alloc .seen ((symbolsOf sh + 7) / 8) then .error .oom
  else sh.foldlM (scanSection src sh (symbolsOf sh)) ⟨[], 0, true⟩

/-! ### The bounds -/

/-- The loop over the sections of the blob. -/
def walkBlob (pos : UInt32) (s : Elf32Shdr) : UInt32 :=
  if inBlob s then alignUp pos s.align + s.size else pos

/-- The loop over the sections of the RAM block: `rpos`, and `data_lo` with `data_hi`. -/
def walkRam (p : UInt32 × UInt32 × UInt32) (s : Elf32Shdr) : UInt32 × UInt32 × UInt32 :=
  if inRam s then
    let rpos := alignUp p.1 s.align
    (rpos + s.size,
      if s.type ≠ shtNobits then
        (if rpos < p.2.1 then rpos else p.2.1, if rpos + s.size > p.2.2 then rpos + s.size else p.2.2)
      else p.2)
  else p

/-- `reloc_count`. -/
def countRels (n : UInt32) (s : Elf32Shdr) : UInt32 :=
  if s.type = shtRel then n + s.relCount else n

/-- `veneer_bound`, for `relocCount` relocations. -/
def veneerBound (symbolCount relocCount : UInt32) : UInt32 :=
  if symbolCount ≠ 0 ∧ relocCount > symbolCount then symbolCount else relocCount

/-- What `app_pic_measure` works out after its relocation pass. -/
def measure (symbolCount : UInt32) (sc : PicScan) (sh : List Elf32Shdr) : PicMeasure :=
  let gotSlots := UInt32.ofNat sc.seen.length
  let gotBytes := alignUp (gotSlots * 4) 4
  let ram := sh.foldl walkRam (gotBytes, 0xFFFFFFFF, 0)
  let data := if ram.2.1 = 0xFFFFFFFF then (gotBytes, gotBytes) else ram.2
  let bound := veneerBound symbolCount (sh.foldl countRels 0)
  let roBound := alignUp (sh.foldl walkBlob 0) 4 + (bound + 1) * veneerBytes
  let body := alignUp roBound 4 + gotSlots * 8
  let body := alignUp body 4 + sc.absCap * 12
  { pic := sc.supported && gotSlots ≠ 0
    roBound
    bodyBound := alignUp body 4 + (data.2 - data.1)
    ramSize := alignUp ram.1 appBlockAlign
    gotBytes }

/-- `app_pic_measure`. -/
def appPicMeasure (env : PicEnv σ) (src : AppSource) : Except LoadResult PicMeasure := do
  let eh ← readEhdr src
  match readSections src eh with
  | none => throw .read
  | some sh =>
    let sc ← scanObject env src sh
    return measure env.symbolCount sc sh

/-! ### The layout that both derive -/

@[simp] theorem map_hdr_layOut (gotBytes : UInt32) (sh : List Elf32Shdr) :
    (layOut gotBytes sh).sections.map PicSection.hdr = sh := by
  apply List.ext_getElem
  · simp [layOut]
  · intro i _ _
    simp [layOut]

theorem getElem?_layOut (gotBytes : UInt32) (sh : List Elf32Shdr) (i : Nat) :
    ((layOut gotBytes sh).sections[i]?).map PicSection.hdr = sh[i]? := by
  rw [← List.getElem?_map, map_hdr_layOut]

theorem foldl_walkBlob (pos : UInt32) (sh : List Elf32Shdr) :
    sh.foldl walkBlob pos = (place inBlob pos sh).2 := by
  induction sh generalizing pos with
  | nil => rfl
  | cons s sh ih =>
    rw [List.foldl_cons, ih]
    unfold walkBlob
    by_cases inside : inBlob s = true
    · rw [if_pos inside, place, if_pos inside]
    · rw [if_neg inside, place, if_neg inside]

theorem foldl_countRels (gotBytes n : UInt32) (sh : List Elf32Shdr) :
    sh.foldl countRels n = (layOut gotBytes sh).sections.foldl
      (fun n s => if s.hdr.type = shtRel then n + s.hdr.relCount else n) n := by
  conv_lhs => rw [← map_hdr_layOut gotBytes sh, List.foldl_map]
  rfl

/-- The walk over the RAM block widens the extent as the layout does. -/
theorem foldl_walkRam (pos : UInt32) (extent : UInt32 × UInt32) (sh : List Elf32Shdr)
    (blob : List UInt32) (len : blob.length = sh.length) :
    sh.foldl walkRam (pos, extent) = ((place inRam pos sh).2,
      (List.zipWith (fun s off => (⟨s, off.1, off.2⟩ : PicSection)) sh
        (blob.zip (place inRam pos sh).1)).foldl PicLayout.widen extent) := by
  induction sh generalizing pos extent blob with
  | nil => rfl
  | cons s sh ih =>
    rcases blob with _ | ⟨b, blob⟩
    · cases len
    have len : blob.length = sh.length := Nat.succ.inj len
    rw [List.foldl_cons, place]
    by_cases inside : inRam s = true
    · rw [if_pos inside]
      rw [List.zip_cons_cons, List.zipWith_cons_cons, List.foldl_cons, walkRam, if_pos inside]
      refine (ih _ _ blob len).trans ?_
      congr 2
      unfold PicLayout.widen
      dsimp only
      by_cases bits : s.type = shtNobits
      · rw [if_neg (not_not.mpr bits), if_neg (fun h => h.2 bits)]
      · have both : inRam s = true ∧ s.type ≠ shtNobits := ⟨inside, bits⟩
        rw [if_pos bits, if_pos both]
    · rw [if_neg inside]
      rw [List.zip_cons_cons, List.zipWith_cons_cons, List.foldl_cons, walkRam, if_neg inside]
      refine (ih _ _ blob len).trans ?_
      congr 2
      unfold PicLayout.widen
      rw [if_neg (fun h => inside h.1)]

/-- The section is a relocation section whose target is in the RAM block. -/
def patchesRam (sh : List Elf32Shdr) (s : Elf32Shdr) : Bool :=
  s.type = shtRel && (sh[s.info.toNat]?).any inRam

theorem isSome_target (gotBytes : UInt32) (sh : List Elf32Shdr) (s : PicSection) :
    ((layOut gotBytes sh).target inRam s).isSome = patchesRam sh s.hdr := by
  have same := getElem?_layOut gotBytes sh s.hdr.info.toNat
  unfold PicLayout.target patchesRam
  by_cases rel : s.hdr.type = shtRel
  · rw [if_neg (not_not.mpr rel), ← same]
    cases (layOut gotBytes sh).sections[s.hdr.info.toNat]? with
    | none => simp
    | some tgt =>
      by_cases inside : inRam tgt.hdr = true
      · simp [rel, inside]
      · simp [inside]
  · simp [rel]

theorem absCap_layOut (gotBytes : UInt32) (sh : List Elf32Shdr) :
    (layOut gotBytes sh).absCap =
      sh.foldl (fun n s => if patchesRam sh s then n + s.relCount else n) 0 := by
  conv_rhs => arg 3; rw [← map_hdr_layOut gotBytes sh]
  rw [List.foldl_map]
  unfold PicLayout.absCap
  congr 1
  funext n s
  rw [isSome_target]

/-! ### What the pass has counted -/

variable {env : PicEnv σ} {src : AppSource} {nsyms : UInt32} {sh : List Elf32Shdr}

theorem scanRels_ok {s : Elf32Shdr} {writable : Bool} {l : List Nat} {sc sc' : PicScan}
    (h : scanRels src s nsyms writable l sc = .ok sc') (supported : sc'.supported = true) :
    sc.supported = true ∧ sc'.absCap = sc.absCap ∧
      sc'.seen = (l.filterMap fun r => relAt src s (.ofNat r)).foldl (seeRel nsyms) sc.seen := by
  induction l generalizing sc with
  | nil =>
    cases h
    exact ⟨supported, rfl, rfl⟩
  | cons r l ih =>
    unfold scanRels at h
    split at h
    · cases h
    rename_i rel hr
    rw [List.filterMap_cons, hr]
    rw [List.foldl_cons]
    split at h
    · rename_i skip
      have same : seeRel nsyms sc.seen rel = sc.seen := by
        unfold seeRel reachesGot
        rw [skip]
        simp [show rArmNone ≠ rArmGotBrel by decide]
      rw [same]
      exact ih h
    split at h
    · cases h
      cases supported
    · exact ih h

theorem scanSection_ok {s : Elf32Shdr} {sc sc' : PicScan}
    (h : scanSection src sh nsyms sc s = .ok sc') (supported : sc'.supported = true) :
    sc.supported = true ∧
      sc'.absCap = (if patchesRam sh s then sc.absCap + s.relCount else sc.absCap) ∧
      sc'.seen = (if placedTarget sh s ∧ s.type = shtRel then
        (relsOf src s).foldl (seeRel nsyms) sc.seen else sc.seen) := by
  unfold scanSection at h
  split at h
  · rename_i not
    cases h
    rw [supported] at not
    cases not
  rename_i was
  have was : sc.supported = true := by simpa using was
  have apart : ∀ half, (sh[s.info.toNat]?).any Elf32Shdr.placed = half → patchesRam sh s =
      (s.type = shtRel && half && (sh[s.info.toNat]?).any Elf32Shdr.writable) := by
    rintro half rfl
    unfold patchesRam
    cases sh[s.info.toNat]? with
    | none => simp
    | some tgt => simp [inRam, Bool.and_assoc]
  split at h
  · rename_i type
    cases h
    have outside : patchesRam sh s = false := by simp [patchesRam, type]
    rw [outside, if_neg Bool.false_ne_true, if_neg (fun h => type h.2)]
    exact ⟨was, rfl, rfl⟩
  rename_i type
  have type := not_not.mp type
  split at h
  · rename_i target
    have target : placedTarget sh s = false := by simpa using target
    cases h
    have outside : patchesRam sh s = false := by rw [apart _ target]; simp
    rw [outside, if_neg Bool.false_ne_true, if_neg (fun h => by rw [target] at h; cases h.1)]
    exact ⟨was, rfl, rfl⟩
  rename_i target
  have target : placedTarget sh s = true := by simpa using target
  have both : placedTarget sh s = true ∧ s.type = shtRel := ⟨target, type⟩
  rw [if_pos both, apart _ target]
  dsimp only at h
  rcases scanRels_ok h supported with ⟨-, cap, seen⟩
  rw [cap, seen]
  by_cases writable : (sh[s.info.toNat]?).any Elf32Shdr.writable = true
  · rw [if_pos writable]
    simp only [type, writable, decide_true, Bool.and_self, if_true]
    exact ⟨was, trivial, rfl⟩
  · rw [if_neg writable]
    simp only [writable, Bool.and_false, Bool.false_eq_true, if_false]
    exact ⟨was, trivial, rfl⟩

theorem foldlM_scanSection {l : List Elf32Shdr} {sc sc' : PicScan}
    (h : l.foldlM (scanSection src sh nsyms) sc = .ok sc') (supported : sc'.supported = true) :
    sc.supported = true ∧
      sc'.absCap = l.foldl (fun n s => if patchesRam sh s then n + s.relCount else n) sc.absCap ∧
      sc'.seen = (((l.filter (placedTarget sh)).filter fun s => s.type = shtRel).flatMap
        (relsOf src)).foldl (seeRel nsyms) sc.seen := by
  induction l generalizing sc with
  | nil =>
    cases h
    exact ⟨supported, rfl, rfl⟩
  | cons s l ih =>
    rw [List.foldlM_cons] at h
    cases hs : scanSection src sh nsyms sc s with
    | error e =>
      rw [hs] at h
      cases h
    | ok next =>
      rw [hs] at h
      rcases ih h with ⟨was, cap, seen⟩
      rcases scanSection_ok hs was with ⟨first, cap', seen'⟩
      refine ⟨first, by rw [cap, cap', List.foldl_cons], ?_⟩
      rw [seen, seen']
      by_cases target : placedTarget sh s = true
      · rw [List.filter_cons_of_pos target]
        by_cases type : s.type = shtRel
        · rw [if_pos ⟨target, type⟩, List.filter_cons_of_pos (by simpa using type),
            List.flatMap_cons, List.foldl_append]
        · rw [if_neg (fun h => type h.2), List.filter_cons_of_neg (by simpa using type)]
      · rw [List.filter_cons_of_neg target, if_neg (fun h => target h.1)]

/-- A symbol is counted once. -/
theorem length_seen (nsyms : UInt32) (rels : List Elf32Rel) :
    (rels.foldl (seeRel nsyms) []).length =
      ((rels.filter (reachesGot nsyms)).map Elf32Rel.sym).toFinset.card := by
  have spec := @seeRel_spec nsyms rels [] List.nodup_nil
  rw [← List.toFinset_card_of_nodup spec.1]
  congr 1
  ext x
  rw [List.mem_toFinset, spec.2 x, List.mem_toFinset]
  simp

/-- What the pass over a supported object has counted. -/
theorem scanObject_ok {sc : PicScan} (h : scanObject env src sh = .ok sc)
    (supported : sc.supported = true) (got : sc.seen ≠ []) (gotBytes : UInt32) :
    sc.absCap = (layOut gotBytes sh).absCap ∧
      sc.seen.length = (gotSymbols src (symbolsOf sh) (sh.filter (placedTarget sh))).card := by
  unfold scanObject at h
  split at h
  · cases h
    exact absurd rfl got
  split at h
  · cases h
  rcases foldlM_scanSection h supported with ⟨-, cap, seen⟩
  refine ⟨by rw [cap, absCap_layOut], ?_⟩
  rw [seen, length_seen]
  rfl

end RPCortex.Loader
