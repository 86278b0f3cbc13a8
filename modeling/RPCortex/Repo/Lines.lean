import RPCortex.Package.Kept
import RPCortex.Repo.Upgrade

/-! What an install leaves: the file of the package, and the index with the line of the package at its
end.  An index that the installs have written is the lines of some packages. -/

namespace RPCortex.Repo

open Lib Package Slot

/-- The line of a package. -/
def lineOf (p : Str × Str) : Str := p.1 ++ comma :: p.2

/-- The index of some packages. -/
def render (ps : List (Str × Str)) : Str := unlines 0x0A (ps.map lineOf)

/-- A name and a version that an index can hold. -/
structure Good (p : Str × Str) : Prop where
  nonempty : p.1 ≠ []
  comment : p.1.head? ≠ some 0x23
  name : ∀ c ∈ p.1, c ≠ comma ∧ c ≠ 0x0A ∧ c ≠ 0
  version : ∀ c ∈ p.2, c ≠ 0x0A ∧ c ≠ 0
  short : p.1.length ≤ 23 ∧ p.2.length ≤ 11

variable {p : Str × Str} {ps : List (Str × Str)}

theorem Good.comma_notMem (good : Good p) : comma ∉ p.1 := fun mem => (good.name _ mem).1 rfl

theorem Good.line (good : Good p) : ∀ c ∈ lineOf p, c ≠ 0x0A ∧ c ≠ 0 := by
  intro c mem
  rcases List.mem_append.mp mem with mem | mem
  · exact (good.name c mem).2
  · rcases List.mem_cons.mp mem with rfl | mem
    · decide
    · exact good.version c mem

theorem zero_notMem_render (good : ∀ p ∈ ps, Good p) : 0 ∉ render ps := by
  intro mem
  obtain ⟨line, hl, mem⟩ := List.mem_flatMap.mp mem
  obtain ⟨p, hp, rfl⟩ := List.mem_map.mp hl
  rcases List.mem_append.mp mem with mem | mem
  · exact ((good p hp).line 0 mem).2 rfl
  · exact absurd (List.mem_singleton.mp mem) (by decide)

theorem splitLines_render (good : ∀ p ∈ ps, Good p) : splitLines 0x0A (render ps) = ps.map lineOf := by
  refine splitLines_unlines fun line mem no => ?_
  obtain ⟨p, hp, rfl⟩ := List.mem_map.mp mem
  exact ((good p hp).line _ no).1 rfl

theorem render_getLast? : render ps = [] ∨ (render ps).getLast? = some 0x0A := by
  induction ps with
  | nil => exact Or.inl rfl
  | cons p ps ih =>
    right
    rw [render, List.map_cons, unlines_cons]
    rcases ih with empty | last
    · rw [render] at empty
      rw [empty, List.getLast?_append_of_ne_nil _ (by simp)]
      rfl
    · rw [render] at last
      rw [List.getLast?_append_of_ne_nil _ (by simp), List.getLast?_cons, last]
      rfl

theorem lineIs_lineOf (good : Good p) {name : Str} (plain : comma ∉ name) :
    lineIs (lineOf p) name = decide (p.1 = name) := by
  rw [lineIs, Bool.eq_iff_iff, List.isPrefixOf_iff_prefix, decide_eq_true_iff]
  constructor
  · rintro ⟨rest, eq⟩
    rw [List.append_assoc, lineOf] at eq
    have cut := congrArg (cutAt comma) eq
    rw [List.singleton_append, cutAt_append plain, cutAt_append good.comma_notMem] at cut
    exact (Prod.mk.inj (Option.some.inj cut)).1.symm
  · rintro rfl
    exact ⟨p.2, by simp [lineOf]⟩

theorem pkgindexRemove_render (good : ∀ p ∈ ps, Good p) {name : Str} (plain : comma ∉ name) :
    pkgindexRemove (render ps) name = render (ps.filter fun p => p.1 ≠ name) := by
  have kept : (ps.map lineOf).filter (fun line => !lineIs line name) =
      (ps.filter fun p => p.1 ≠ name).map lineOf := by
    rw [List.filter_map]
    congr 1
    refine List.filter_congr fun p mem => ?_
    rw [Function.comp, lineIs_lineOf (good p mem) plain]
    simp
  simp only [pkgindexRemove, cstr_of_notMem (zero_notMem_render good), splitLines_render good, kept]
  cases h : (ps.map lineOf).getLast? with
  | none => rfl
  | some last =>
    have ne : render ps ≠ [] := by
      rintro empty
      rw [← splitLines_render good, empty] at h
      cases h
    simp only [render_getLast?.resolve_left ne, true_or, if_true]
    rfl

/-- An index with room gets the line of a package at its end. -/
theorem pkgindexAdd_render (good : ∀ p ∈ ps, Good p) {name version : Str} (plain : comma ∉ name)
    (room : (render (ps.filter fun p => p.1 ≠ name)).length + (name.length + version.length + 2) < idxBuf) :
    pkgindexAdd (render ps) name version = render ((ps.filter fun p => p.1 ≠ name) ++ [(name, version)]) := by
  have cut : ¬(render (ps.filter fun p => p.1 ≠ name) ≠ [] ∧
      (render (ps.filter fun p => p.1 ≠ name)).getLast? ≠ some 0x0A) := by
    rintro ⟨ne, no⟩
    exact no (render_getLast?.resolve_left ne)
  have fits : ¬idxBuf - (render (ps.filter fun p => p.1 ≠ name)).length ≤
      (name ++ [0x2C] ++ version ++ [0x0A]).length := by
    simp only [List.length_append, List.length_singleton]
    omega
  simp only [pkgindexAdd, pkgindexRemove_render good plain, cut, false_and, if_false, fits]
  simp [render, unlines, lineOf]

theorem pkgindexWalk_render (good : ∀ p ∈ ps, Good p) : pkgindexWalk (render ps) = ps := by
  rw [pkgindexWalk, cstr_of_notMem (zero_notMem_render good), splitLines_render good, List.filter_eq_self.mpr,
    List.map_map]
  · conv_rhs => rw [← List.map_id ps]
    refine List.map_congr_left fun p mem => ?_
    rw [Function.comp, lineOf, cutAt_append (good p mem).comma_notMem]
    rfl
  · intro line mem
    obtain ⟨p, hp, rfl⟩ := List.mem_map.mp mem
    have nonempty := (good p hp).nonempty
    have comment := (good p hp).comment
    cases h : p.1 with
    | nil => exact absurd h nonempty
    | cons c name =>
      rw [h] at comment
      simpa [lineOf, h] using comment

/-- The version under a name in the index of some packages. -/
def versionOf (ps : List (Str × Str)) (name : Str) : Option Str :=
  (ps.find? fun p => p.1.map lower = name.map lower).map Prod.snd

theorem versionIn_render (good : ∀ p ∈ ps, Good p) (name : Str) :
    versionIn (render ps) name = versionOf ps name := by
  rw [versionIn, pkgindexWalk_render good, versionOf]

theorem length_render (ps : List (Str × Str)) :
    (render ps).length = (ps.map fun p => p.1.length + p.2.length + 2).sum := by
  induction ps with
  | nil => rfl
  | cons p ps ih =>
    have : render (p :: ps) = lineOf p ++ 0x0A :: render ps := by simp [render]
    rw [this, List.length_append, List.length_cons, ih, List.map_cons, List.sum_cons, lineOf,
      List.length_append, List.length_cons]
    omega

/-! ### Installing -/

variable {fw : Firmware} {o : Outcomes} {d : Device}

/-- A file that is put where it belongs. -/
theorem place_ok {file dst bytes : Str} (there : d.files file = some bytes) (ne : file ≠ dst)
    (closed : o.closed = true) (ok : (place o d file dst true).1 = true) :
    (place o d file dst true).2.files dst = some bytes ∧
      ∀ p, p ≠ dst → p ≠ file → (place o d file dst true).2.files p = d.files p := by
  have source : (storageRemove d dst o.removed).files file = some bytes := by
    rw [storageRemove_other ne, there]
  simp only [place, if_neg ne, if_true] at ok ⊢
  cases renamed : o.renamed with
  | true =>
    have moved : storageRename (storageRemove d dst o.removed) file dst true =
        (true, { storageRemove d dst o.removed with
          files := upd (upd (storageRemove d dst o.removed).files dst (some bytes)) file none }) := by
      rw [storageRename, source, Option.isSome_some, if_pos ⟨rfl, rfl⟩]
    simp only [moved, if_true]
    refine ⟨by rw [upd_ne ne.symm, upd_same], fun p h h' => ?_⟩
    rw [upd_ne h', upd_ne h, storageRemove_other h]
  | false =>
    have stays : storageRename (storageRemove d dst o.removed) file dst false =
        (false, storageRemove d dst o.removed) := by
      rw [storageRename, if_neg (by simp)]
    simp only [renamed, stays, Bool.false_eq_true, if_false] at ok ⊢
    refine ⟨?_, fun p h _ => by rw [storageCopy_other h, storageRemove_other h]⟩
    cases copied : o.copied with
    | done => simp only [storageCopy, source, closed, if_true, upd_same]
    | refused => simp [storageCopy, source, copied] at ok
    | readFails chunks => simp [storageCopy, source, copied] at ok
    | writeFails => simp [storageCopy, source, copied] at ok

/-- An install that succeeds, the index included. -/
structure Works (o : Outcomes) (hdr : RpcAppHeader) (ok : Bool) : Prop where
  ok : ok = true
  peeked : o.peeked = some hdr
  closed : o.closed = true
  index : o.indexBuffer = true ∧ o.indexRead = true ∧ o.indexRoom = true

/-- The name and the version of a package. -/
def nameOf (hdr : RpcAppHeader) : Str := (text hdr.name).take 23

def versionText (hdr : RpcAppHeader) : Str := (text hdr.version).take 11

theorem tmpPkg_ne (name : Str) : tmpPkg ≠ pkgPath name := by
  intro same
  have last := congrArg List.getLast? same
  rw [pkgPath, List.getLast?_append_of_ne_nil _ (by decide)] at last
  exact absurd last (by decide)

theorem installFinish_ok {hdr : RpcAppHeader} {slot : Bool} {bytes : Str}
    (there : d.files tmpPkg = some bytes) (closed : o.closed = true)
    (index : o.indexBuffer = true ∧ o.indexRead = true ∧ o.indexRoom = true)
    (ok : (installFinish fw o d tmpPkg (nameOf hdr) (versionText hdr) true slot).1.isOk = true) :
    let d' := (installFinish fw o d tmpPkg (nameOf hdr) (versionText hdr) true slot).2
    d'.files (pkgPath (nameOf hdr)) = some bytes ∧
      d'.files pkgIndex = some (pkgindexAdd (((d.files pkgIndex).getD []).take (idxBuf - 1)) (nameOf hdr)
        (versionText hdr)) ∧
      ∀ p, p ≠ pkgPath (nameOf hdr) → p ≠ tmpPkg → p ≠ pkgIndex → d'.files p = d.files p := by
  have placed : (place o d tmpPkg (pkgPath (nameOf hdr)) true).1 = true := by
    by_contra no
    simp only [installFinish] at ok
    rw [if_pos (by simpa using no)] at ok
    cases ok
  obtain ⟨file, others⟩ := place_ok there (tmpPkg_ne _) closed placed
  have sameFiles (d : Device) : (if !slot && slotHolding fw d (nameOf hdr) && !o.busyThen then
      slotRelease o d else d).files = d.files := by
    split
    · unfold slotRelease
      split <;> rfl
    · rfl
  have indexed (d : Device) : (indexAdd o d (nameOf hdr) (versionText hdr)).files =
      upd d.files pkgIndex (some (pkgindexAdd (((d.files pkgIndex).getD []).take (idxBuf - 1)) (nameOf hdr)
        (versionText hdr))) := by
    simp only [indexAdd, index.1, index.2.1, index.2.2, Bool.not_true, Bool.false_eq_true, if_false, if_true]
  simp only [installFinish, placed, Bool.not_true, Bool.false_eq_true, if_false, indexed, sameFiles]
  refine ⟨?_, ?_, fun p h h' h'' => ?_⟩
  · rw [upd_ne (pkgPath_ne_pkgIndex _).symm, file]
  · rw [upd_same, others _ (pkgPath_ne_pkgIndex _) (by decide)]
  · rw [upd_ne h'', others p h h']

theorem pkgInstallFile_ok {hdr : RpcAppHeader} {bytes : Str} (there : d.files tmpPkg = some bytes)
    (works : Works o hdr (pkgInstallFile fw o d tmpPkg true).1.isOk) :
    let d' := (pkgInstallFile fw o d tmpPkg true).2
    d'.files (pkgPath (nameOf hdr)) = some bytes ∧
      d'.files pkgIndex = some (pkgindexAdd (((d.files pkgIndex).getD []).take (idxBuf - 1)) (nameOf hdr)
        (versionText hdr)) ∧
      ∀ p, p ≠ pkgPath (nameOf hdr) → p ≠ tmpPkg → p ≠ pkgIndex → d'.files p = d.files p := by
  have ok := works.ok
  simp only [pkgInstallFile, works.peeked] at ok ⊢
  by_cases missing : ((d.files tmpPkg).isNone || !o.opened) = true
  · rw [if_pos missing] at ok
    cases ok
  rw [if_neg missing] at ok ⊢
  by_cases running : (o.busy && !o.stoodAside) = true
  · rw [if_pos running] at ok
    cases ok
  rw [if_neg running] at ok ⊢
  by_cases route : routeOf fw o d ((text hdr.name).take 23) = .slot
  · rw [if_pos route] at ok ⊢
    by_cases kept : (o.resident && !o.unloaded) = true
    · rw [if_pos kept] at ok
      cases ok
    rw [if_neg kept] at ok ⊢
    cases hs : d.slot with
    | none =>
      rw [hs] at ok
      cases ok
    | some base =>
      simp only [hs] at ok ⊢
      by_cases written : (slotWrite fw o base).1 = true
      · rw [if_neg (by simp [written])] at ok ⊢
        exact installFinish_ok there works.closed works.index ok
      · rw [if_pos (by simpa using written)] at ok
        cases ok
  · rw [if_neg route] at ok ⊢
    by_cases loaded : o.loaded = true
    · rw [if_neg (by simp [loaded])] at ok ⊢
      exact installFinish_ok there works.closed works.index ok
    · rw [if_pos (by simpa using loaded)] at ok
      cases ok

end RPCortex.Repo
