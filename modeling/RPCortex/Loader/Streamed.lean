import RPCortex.Loader.Paged
import RPCortex.Loader.Routed

/-! What an install sends to its sink: the pages, one behind the other, are the whole image with every relocation
applied, and the veneers follow it. -/

namespace RPCortex.Loader

open Lib Slot

variable {σ : Type} {env : PicEnv σ} {o : PicObject} {st st' : PicState σ} {pos fin : UInt32} {image : List UInt8}
variable {veneers : List UInt32} {got : List PicGotEntry}

/-! ### Filling -/

theorem readExact_stretch {src : AppSource} {off len : UInt32} {bytes : List UInt8} (some_ : len.toNat ≠ 0)
    (read : readExact src off len = some bytes) :
    bytes = stretch src.bytes off.toNat len.toNat ∧ off.toNat + len.toNat ≤ src.bytes.length := by
  unfold readExact at read
  split at read
  · rename_i zero
    rw [zero] at some_
    exact absurd rfl some_
  split at read
  · cases read
  split at read
  · rename_i inside
    exact ⟨(Option.some.inj read).symm, inside.1⟩
  · cases read

theorem length_laySection {s : PicSection} (inside : inBlob s.hdr = true →
    s.blobOff.toNat + s.hdr.size.toNat ≤ image.length) : (laySection o image s).length = image.length := by
  unfold laySection
  split
  · rfl
  · rename_i blob
    rw [not_or, Bool.not_eq_true', Bool.not_eq_false] at blob
    have room := inside blob.1
    apply length_splice
    rw [List.length_take]
    omega

section Cut

variable {src : List UInt8} {pos fin start size off lo hi : Nat}

/-- A source that does not reach into a window leaves it alone. -/
theorem stretch_lay_outside (room : start + size ≤ image.length)
    (none_ : min (start + size) fin ≤ max start pos) :
    stretch image pos (fin - pos) = stretch (splice image start (stretch src off size)) pos (fin - pos) := by
  have taken : (stretch src off size).length ≤ size := by
    rw [stretch, List.length_take]
    exact Nat.min_le_left _ _
  apply List.ext_getElem?
  intro i
  rw [getElem?_stretch, getElem?_stretch]
  split
  · rw [getElem?_splice (by omega)]
    split
    · rfl
    · rw [if_neg (by omega)]
  · rfl

/-- The part of a source that a window takes is what the window sees of the whole of it. -/
theorem splice_stretch_lay (within : fin ≤ image.length) (room : start + size ≤ image.length)
    (lo_eq : lo = max start pos) (hi_eq : hi = min (start + size) fin) (some_ : lo < hi)
    (inFile : off + (lo - start) + (hi - lo) ≤ src.length) :
    splice (stretch image pos (fin - pos)) (lo - pos) (stretch src (off + (lo - start)) (hi - lo)) =
      stretch (splice image start (stretch src off size)) pos (fin - pos) := by
  have taken : (stretch src (off + (lo - start)) (hi - lo)).length = hi - lo := length_stretch inFile
  have whole : (stretch src off size).length = min size (src.length - off) := by
    rw [stretch, List.length_take, List.length_drop]
  apply List.ext_getElem?
  intro i
  rw [getElem?_splice (by rw [length_stretch (by omega)]; omega), taken, getElem?_stretch, getElem?_stretch,
    getElem?_stretch, getElem?_splice (by omega), whole]
  by_cases window : i < fin - pos
  · rw [if_pos window, if_pos window]
    by_cases before : i < lo - pos
    · rw [if_pos before, if_pos (by omega)]
    by_cases inside : i < lo - pos + (hi - lo)
    · rw [if_neg before, if_pos inside, if_pos (by omega), if_neg (by omega), if_pos (by omega), getElem?_stretch,
        if_pos (by omega)]
      congr 1
      omega
    · rw [if_neg before, if_neg inside, if_neg (by omega), if_neg (by omega)]
  · rw [if_neg window, if_neg (by omega), if_neg (by omega), if_neg window]

end Cut

/-- A page is filled as the image is. -/
theorem fillPage_stretch (fits : o.BlobFits) (le : pos.toNat ≤ fin.toNat)
    (below : fin.toNat ≤ o.layout.veneerOff.toNat) :
    (layBlob o).length = o.layout.veneerOff.toNat ∧
      Ensures (fillPage o pos fin) (· = stretch (layBlob o) pos.toNat (fin.toNat - pos.toNat)) := by
  have room := fits.room
  have blob := fits.blob
  have file := fits.file
  have width : (fin - pos).toNat = fin.toNat - pos.toNat :=
    UInt32.toNat_sub_of_le _ _ (UInt32.le_iff_toNat_le.mpr le)
  have start : List.replicate (fin - pos).toNat (0 : UInt8) =
      stretch (List.replicate o.layout.veneerOff.toNat 0) pos.toNat (fin.toNat - pos.toNat) := by
    rw [stretch, List.drop_replicate, List.take_replicate, width]
    congr 1
    omega
  have size : (List.replicate o.layout.veneerOff.toNat (0 : UInt8)).length = o.layout.veneerOff.toNat :=
    List.length_replicate
  unfold fillPage layBlob
  rw [start]
  generalize List.replicate o.layout.veneerOff.toNat (0 : UInt8) = image at size ⊢
  generalize o.layout.sections = l at blob file ⊢
  induction l generalizing image with
  | nil => exact ⟨size, Ensures.pure rfl⟩
  | cons s l ih =>
    rw [List.foldlM_cons, List.foldl_cons]
    have inside := blob s List.mem_cons_self
    have length : (laySection o image s).length = o.layout.veneerOff.toNat :=
      (length_laySection (by rwa [size])).trans size
    obtain ⟨total, rest⟩ := ih _ length (fun s mem => blob s (List.mem_cons_of_mem _ mem))
      (fun s mem => file s (List.mem_cons_of_mem _ mem))
    refine ⟨total, Ensures.bind (P := (· = stretch (laySection o image s) pos.toNat (fin.toNat - pos.toNat))) ?_
      fun page same => same ▸ rest⟩
    unfold laySection
    split
    · exact Ensures.ok rfl
    rename_i half
    rw [not_or, Bool.not_eq_true', Bool.not_eq_false] at half
    have inside := inside half.1
    have source := file s List.mem_cons_self half.1 half.2
    dsimp only
    have stop : (s.blobOff + s.hdr.size).toNat = s.blobOff.toNat + s.hdr.size.toNat := by
      rw [UInt32.toNat_add]
      omega
    have lo : (if s.blobOff > pos then s.blobOff else pos).toNat = max s.blobOff.toNat pos.toNat := by
      split
      · rename_i more
        have := UInt32.lt_iff_toNat_lt.mp more
        omega
      · rename_i more
        have := UInt32.le_iff_toNat_le.mp (UInt32.not_lt.mp more)
        omega
    have hi : (if s.blobOff + s.hdr.size < fin then s.blobOff + s.hdr.size else fin).toNat =
        min (s.blobOff.toNat + s.hdr.size.toNat) fin.toNat := by
      split
      · rename_i less
        have := UInt32.lt_iff_toNat_lt.mp less
        omega
      · rename_i less
        have := UInt32.le_iff_toNat_le.mp (UInt32.not_lt.mp less)
        omega
    generalize (if s.blobOff > pos then s.blobOff else pos) = lo' at lo ⊢
    generalize (if s.blobOff + s.hdr.size < fin then s.blobOff + s.hdr.size else fin) = hi' at hi ⊢
    split
    · rename_i none_
      have none_ := UInt32.le_iff_toNat_le.mp none_
      exact Ensures.ok (stretch_lay_outside (by omega) (by omega))
    · rename_i some_
      have some_ := UInt32.lt_iff_toNat_lt.mp (UInt32.not_le.mp some_)
      have skip : (lo' - s.blobOff).toNat = lo'.toNat - s.blobOff.toNat :=
        UInt32.toNat_sub_of_le _ _ (UInt32.le_iff_toNat_le.mpr (by omega))
      have many : (hi' - lo').toNat = hi'.toNat - lo'.toNat :=
        UInt32.toNat_sub_of_le _ _ (UInt32.le_iff_toNat_le.mpr (by omega))
      have place : (lo' - pos).toNat = lo'.toNat - pos.toNat :=
        UInt32.toNat_sub_of_le _ _ (UInt32.le_iff_toNat_le.mpr (by omega))
      have from_ : (s.hdr.offset + (lo' - s.blobOff)).toNat = s.hdr.offset.toNat + (lo'.toNat - s.blobOff.toNat) := by
        rw [UInt32.toNat_add, skip]
        omega
      cases read : readExact o.src (s.hdr.offset + (lo' - s.blobOff)) (hi' - lo') with
      | none => exact Ensures.error
      | some bytes =>
        obtain ⟨rfl, inFile⟩ := readExact_stretch (by omega) read
        rw [from_, many] at inFile ⊢
        rw [place]
        exact Ensures.ok (splice_stretch_lay (by omega) (by omega) lo hi some_ inFile)

/-! ### Pages -/

theorem Turns.mem {next : List UInt8 → PicSection × Elf32Rel → List UInt8}
    {P : List UInt8 → PicSection × Elf32Rel → Prop} {rels : List (PicSection × Elf32Rel)} {p : PicSection × Elf32Rel}
    (turns : Turns next P image rels) (mem : p ∈ rels) : ∃ image, P image p := by
  induction rels generalizing image with
  | nil => cases mem
  | cons q rels ih =>
    rcases List.mem_cons.mp mem with rfl | tail
    · exact ⟨image, turns.1⟩
    · exact ih turns.2 tail

/-- The image with each relocation applied that can be. -/
def settled (env : PicEnv σ) (o : PicObject) (veneers : List UInt32) (got : List PicGotEntry) : List UInt8 :=
  (blobRels o).foldl (settleRel env o veneers got) (layBlob o)

/-- No relocation of the blob lies across `at`. -/
def Edge (o : PicObject) (at_ : Nat) : Prop :=
  ∀ p ∈ blobRels o, patches p = true → (siteOf p).toNat < at_ → (siteOf p).toNat + 4 ≤ at_

/-- The relocations between `a` and `cut` apply, with these numbers. -/
def Apply (env : PicEnv σ) (o : PicObject) (veneers : List UInt32) (got : List PicGotEntry) (a cut : Nat) : Prop :=
  Turns (settleRel env o veneers got) (fun image p => patches p = true → a ≤ (siteOf p).toNat → (siteOf p).toNat < cut →
    (patchRel env o veneers got image p).isSome = true) (layBlob o) (blobRels o)

theorem Apply.append {a cut b : Nat} (front : Apply env o veneers got a cut) (back : Apply env o veneers got cut b) :
    Apply env o veneers got a b := by
  refine Turns.mp front back fun image p _ low high patch after before => ?_
  by_cases less : (siteOf p).toNat < cut
  · exact low patch after less
  · exact high patch (by omega) before

/-- What a page that the loop emits has come to. -/
structure Emitted (env : PicEnv σ) (o : PicObject) (st : PicState σ) (pos : UInt32) (pg : PicPage σ) : Prop where
  remembers : Remembers env o pg.st
  grows : Grows st pg.st
  sink : pg.st.sink = st.sink
  below : pg.emitEnd.toNat ≤ o.layout.veneerOff.toNat
  length : (pg.bytes.take (pg.emitEnd - pos).toNat).length = pg.emitEnd.toNat - pos.toNat
  numbers : (pg.st.veneers, pg.st.got) =
    (relsIn o pos.toNat (pg.emitEnd.toNat - pos.toNat)).foldl (numberRel env o) (st.veneers, st.got)
  edge : Edge o pg.emitEnd.toNat
  image : ∀ veneers got, pg.st.veneers <+: veneers → pg.st.got <+: got →
    pg.bytes.take (pg.emitEnd - pos).toNat =
        stretch (settled env o veneers got) pos.toNat (pg.emitEnd.toNat - pos.toNat) ∧
      Apply env o veneers got pos.toNat pg.emitEnd.toNat

theorem makePage_emitted (ends : o.NamesEnd) (fits : o.BlobFits) (rem : Remembers env o st)
    (more : pos < o.layout.veneerOff) (edge : Edge o pos.toNat) {pg : PicPage σ} (made : makePage env o st pos = .ok pg)
    (moves : pos.toNat < pg.emitEnd.toNat) (reach : pg.patchedTo.toNat ≤ pg.emitEnd.toNat) :
    Emitted env o st pos pg := by
  have room := fits.room
  have more := UInt32.lt_iff_toNat_lt.mp more
  have size : (pos + picPage).toNat = pos.toNat + 4096 := by
    rw [UInt32.toNat_add, show picPage.toNat = 4096 from rfl]
    omega
  have bounds : pos.toNat ≤ (if pos + picPage > o.layout.veneerOff then o.layout.veneerOff else pos + picPage).toNat ∧
      (if pos + picPage > o.layout.veneerOff then o.layout.veneerOff else pos + picPage).toNat ≤
        o.layout.veneerOff.toNat := by
    split
    · exact ⟨more.le, le_rfl⟩
    · rename_i inside
      have inside := UInt32.le_iff_toNat_le.mp (UInt32.not_lt.mp inside)
      omega
  unfold makePage at made
  dsimp only at made
  generalize (if pos + picPage > o.layout.veneerOff then o.layout.veneerOff else pos + picPage) = fin at bounds made
  obtain ⟨le, below⟩ := bounds
  obtain ⟨total, fill⟩ := fillPage_stretch fits le below
  cases filled : fillPage o pos fin with
  | error e =>
    rw [filled] at made
    cases made
  | ok bytes =>
    rw [filled] at made
    have run := patchPage_rels made
    have bytes_ := fill bytes filled
    have width : bytes.length = fin.toNat - pos.toNat := by
      rw [bytes_, length_stretch (by omega)]
    have ran := page_run ends fits (fun p mem => mem) run rem below rfl le_rfl reach
    have whole := ran.below
    have image {veneers : List UInt32} {got : List PicGotEntry} (hv : pg.st.veneers <+: veneers)
        (hg : pg.st.got <+: got) (tracks : Tracks o pos fin pg.emitEnd.toNat
          { st, bytes, patchedTo := pos, emitEnd := fin } (layBlob o)) :=
      page_tracks ends fits (fun p mem => mem) run rem below moves.le rfl le_rfl reach edge hv hg tracks
    have cutWidth : (pg.emitEnd - pos).toNat = pg.emitEnd.toNat - pos.toNat :=
      UInt32.toNat_sub_of_le _ _ (UInt32.le_iff_toNat_le.mpr moves.le)
    have tracks : Tracks o pos fin pg.emitEnd.toNat { st, bytes, patchedTo := pos, emitEnd := fin } (layBlob o) := by
      refine ⟨total, width, ?_⟩
      rw [stretch, List.drop_zero, bytes_]
      exact stretch_take (by omega)
    obtain ⟨final, turns⟩ := image List.prefix_rfl List.prefix_rfl tracks
    refine ⟨ran.remembers, ran.grows, ran.sink, whole.trans below, ?_, ?_, fun p mem patch less => ?_,
      fun veneers got hv hg => ?_⟩
    · have length := final.bytes
      rw [List.length_take, cutWidth]
      omega
    · rw [ran.numbers, relsIn, Nat.add_sub_cancel' moves.le]
    · by_cases before : (siteOf p).toNat < pos.toNat
      · have := edge p mem patch before
        omega
      · obtain ⟨_, at_⟩ := turns.mem mem
        exact (at_ patch (by omega) less).2
    · obtain ⟨final, turns⟩ := image hv hg tracks
      refine ⟨?_, turns.mp turns fun image p _ both _ patch after before => (both patch after before).1⟩
      have same := final.same
      rw [stretch, List.drop_zero] at same
      rw [cutWidth, same]
      rfl

/-! ### What the sink gets -/

/-- An environment whose sink keeps, in order, what it is sent. -/
def logging (env : PicEnv σ) : PicEnv (σ × List (UInt32 × List UInt8)) where
  symbolCount := env.symbolCount
  indexOf := env.indexOf
  alloc := env.alloc
  sink r off bytes :=
    let taken := env.sink r.1 off bytes
    (taken.1, taken.2, r.2 ++ [(off, bytes)])

/-- Chunks that follow one another from `start` on, none of them empty. -/
def Contiguous : Nat → List (UInt32 × List UInt8) → Prop
  | _, [] => True
  | start, chunk :: chunks =>
    chunk.1.toNat = start ∧ chunk.2 ≠ [] ∧ Contiguous (start + chunk.2.length) chunks

theorem Contiguous.append {start : Nat} {chunks rest : List (UInt32 × List UInt8)} (front : Contiguous start chunks)
    (back : Contiguous (start + (chunks.flatMap Prod.snd).length) rest) : Contiguous start (chunks ++ rest) := by
  induction chunks generalizing start with
  | nil => exact back
  | cons chunk chunks ih =>
    refine ⟨front.1, front.2.1, ih front.2.2 ?_⟩
    rwa [List.flatMap_cons, List.length_append, ← Nat.add_assoc] at back

/-- What the page loop has sent from `pos` on. -/
structure Sent (env : PicEnv σ) (o : PicObject) (st : PicState (σ × List (UInt32 × List UInt8))) (pos : UInt32)
    (pages : List (UInt32 × List UInt8)) (st' : PicState (σ × List (UInt32 × List UInt8))) : Prop where
  remembers : Remembers (logging env) o st'
  grows : Grows st st'
  log : st'.sink.2 = st.sink.2 ++ pages
  follow : Contiguous pos.toNat pages
  numbers : (st'.veneers, st'.got) = pages.foldl (numberPage (logging env) o) (st.veneers, st.got)
  image : ∀ veneers got, st'.veneers <+: veneers → st'.got <+: got →
    pages.flatMap Prod.snd = stretch (settled (logging env) o veneers got) pos.toNat
        (o.layout.veneerOff.toNat - pos.toNat) ∧
      Apply (logging env) o veneers got pos.toNat o.layout.veneerOff.toNat

/-- The loop sends the rest of the image. -/
theorem pagePass_sent (ends : o.NamesEnd) (fits : o.BlobFits) {st : PicState (σ × List (UInt32 × List UInt8))}
    (rem : Remembers (logging env) o st) (below : pos.toNat ≤ o.layout.veneerOff.toNat) (edge : Edge o pos.toNat) :
    Ensures (pagePass (logging env) o st pos) fun st' => ∃ pages, Sent env o st pos pages st' := by
  induction st, pos using pagePass.induct (logging env) o with
  | case1 st pos lt e page =>
    unfold pagePass
    rw [if_pos lt, page]
    exact Ensures.error
  | case2 st pos lt pg page stuck =>
    unfold pagePass
    rw [if_pos lt, page]
    simp only [stuck, dite_true]
    exact Ensures.error
  | case3 st pos lt pg page moves overlap =>
    unfold pagePass
    rw [if_pos lt, page]
    simp only [moves, overlap, dite_false, if_true]
    exact Ensures.error
  | case4 st pos lt pg page moves inside sink refused =>
    unfold pagePass
    rw [if_pos lt, page]
    simp only [moves, inside, refused, dite_false, if_false]
    exact Ensures.error
  | case5 st pos lt pg page moves inside sink taken ih =>
    have forward := UInt32.lt_iff_toNat_lt.mp (UInt32.not_le.mp moves)
    have emitted := makePage_emitted ends fits rem lt edge page forward
      (UInt32.le_iff_toNat_le.mp (UInt32.not_lt.mp inside))
    have log : sink.2 = st.sink.2 ++ [(pos, pg.bytes.take (pg.emitEnd - pos).toNat)] := by
      rw [← emitted.sink]
      exact congrArg (fun r => r.2.2) taken.symm
    have rest := ih ⟨emitted.remembers.namebuf, emitted.remembers.memo, emitted.remembers.distinct⟩ emitted.below
      emitted.edge
    unfold pagePass
    rw [if_pos lt, page]
    simp only [moves, inside, taken, dite_false, if_false]
    intro st' done
    obtain ⟨pages, sent⟩ := rest st' done
    have width := emitted.length
    have reach := emitted.below
    refine ⟨(pos, pg.bytes.take (pg.emitEnd - pos).toNat) :: pages, sent.remembers,
      emitted.grows.trans ⟨sent.grows.veneers, sent.grows.got⟩, ?_, ⟨rfl, ?_, ?_⟩, ?_, fun veneers got hv hg => ?_⟩
    · rw [sent.log, log, List.append_assoc]
      rfl
    · intro none_
      dsimp only at none_
      rw [none_] at width
      have zero : ([] : List UInt8).length = 0 := rfl
      omega
    · dsimp only
      rw [width, Nat.add_sub_cancel' forward.le]
      exact sent.follow
    · rw [sent.numbers, List.foldl_cons, numberPage, width, ← emitted.numbers]
    · obtain ⟨bytes, front⟩ := emitted.image veneers got (sent.grows.veneers.trans hv) (sent.grows.got.trans hg)
      obtain ⟨tail, back⟩ := sent.image veneers got hv hg
      refine ⟨?_, front.append back⟩
      rw [List.flatMap_cons, tail, bytes]
      have joined := @stretch_append (settled (logging env) o veneers got) pos.toNat (pg.emitEnd.toNat - pos.toNat)
        (o.layout.veneerOff.toNat - pg.emitEnd.toNat)
      rw [Nat.add_sub_cancel' forward.le] at joined
      rw [joined]
      congr 1
      omega
  | case6 st pos done =>
    unfold pagePass
    rw [if_neg done]
    have past := UInt32.le_iff_toNat_le.mp (UInt32.not_lt.mp done)
    refine Ensures.ok ⟨[], rem, .refl st, (List.append_nil _).symm, trivial, rfl, fun veneers got _ _ => ⟨?_, ?_⟩⟩
    · rw [stretch, Nat.sub_eq_zero_of_le past, List.take_zero]
      rfl
    · exact Turns.of_forall (fun image p _ _ after before => absurd before (by omega)) _

/-! ### The RAM half -/

/-- What relocations against the RAM half leave of the numbers. -/
structure Recorded (env : PicEnv σ) (o : PicObject) (st : PicState σ) (rels : List (PicSection × Elf32Rel))
    (st' : PicState σ) : Prop where
  remembers : Remembers env o st'
  grows : Grows st st'
  got : st'.got = st.got
  sink : st'.sink = st.sink
  numbers : st'.veneers = (rels.filter fun p => p.2.type ≠ rArmNone).foldl
    (fun veneers p => numberSym env o veneers p.2.sym) st.veneers

theorem Recorded.nil (rem : Remembers env o st) : Recorded env o st [] st :=
  ⟨rem, .refl st, rfl, rfl, rfl⟩

theorem Recorded.append {st'' : PicState σ} {rels rels' : List (PicSection × Elf32Rel)}
    (front : Recorded env o st rels st') (back : Recorded env o st' rels' st'') :
    Recorded env o st (rels ++ rels') st'' := by
  refine ⟨back.remembers, front.grows.trans back.grows, back.got.trans front.got, back.sink.trans front.sink, ?_⟩
  rw [List.filter_append, List.foldl_append, ← front.numbers, ← back.numbers]

theorem recordAbs_recorded (ends : o.NamesEnd) (rem : Remembers env o st) (tgt : PicSection) (rel : Elf32Rel) :
    Ensures (recordAbs env o tgt st rel) (Recorded env o st [(tgt, rel)]) := by
  unfold recordAbs
  split
  · rename_i nothing
    refine Ensures.ok ⟨rem, .refl st, rfl, rfl, ?_⟩
    rw [List.filter_cons_of_neg (by rw [nothing]; decide)]
    rfl
  rename_i some_
  split
  · exact Ensures.error
  split
  · exact Ensures.error
  split
  · exact Ensures.error
  refine (resolve_resolved ends rem rel.sym).bind fun r res => Ensures.pure ?_
  refine ⟨⟨res.remembers.namebuf, res.remembers.memo, res.remembers.distinct⟩, ⟨res.grows.veneers, res.grows.got⟩,
    res.got, res.sink, ?_⟩
  rw [List.filter_cons_of_pos (by rw [decide_eq_true_eq]; exact some_)]
  exact res.numbers

/-- The pass over the RAM half gives numbers to what it needs, in the order of the object. -/
theorem absPass_recorded (ends : o.NamesEnd) (rem : Remembers env o st) : Ensures (absPass env o st) fun st' =>
    Remembers env o st' ∧ Grows st st' ∧ st'.got = st.got ∧ st'.sink = st.sink ∧
      st'.veneers = (ramRels o).foldl (fun veneers p => numberSym env o veneers p.2.sym) st.veneers := by
  suffices all : Ensures (absPass env o st) (Recorded env o st
      (o.layout.sections.flatMap (relsAgainst o inRam))) by
    intro st' done
    have recorded := all st' done
    exact ⟨recorded.remembers, recorded.grows, recorded.got, recorded.sink, recorded.numbers⟩
  unfold absPass
  generalize o.layout.sections = l
  induction l generalizing st with
  | nil => exact Ensures.pure (Recorded.nil rem)
  | cons s l ih =>
    rw [List.foldlM_cons, List.flatMap_cons]
    refine Ensures.bind (P := Recorded env o st (relsAgainst o inRam s)) ?_ fun st₁ front =>
      (ih front.remembers).mono fun st' back => front.append back
    unfold relsAgainst
    cases o.layout.target inRam s with
    | none => exact Ensures.ok (Recorded.nil rem)
    | some tgt =>
      dsimp only
      intro st' run
      have rels := forRels_ok run
      generalize relsOf o.src s.hdr = rs at rels ⊢
      clear run
      induction rs generalizing st with
      | nil =>
        obtain rfl := Except.ok.inj rels
        exact Recorded.nil rem
      | cons rel rs next =>
        rw [List.foldlM_cons] at rels
        cases first : recordAbs env o tgt st rel with
        | error e =>
          rw [first] at rels
          cases rels
        | ok st₁ =>
          rw [first] at rels
          have front := recordAbs_recorded ends rem tgt rel st₁ first
          exact front.append (next front.remembers rels)

/-! ### The passes together -/

theorem length_settled (fits : o.BlobFits) : (settled env o veneers got).length = o.layout.veneerOff.toNat := by
  have total := (@fillPage_stretch o 0 0 fits le_rfl (Nat.zero_le _)).1
  have inside (p : PicSection × Elf32Rel) (mem : p ∈ blobRels o) (patch : patches p = true) :
      (siteOf p).toNat + 4 ≤ o.layout.veneerOff.toNat := by
    have := siteOf_inside fits mem patch
    omega
  unfold settled
  generalize layBlob o = image at total ⊢
  generalize blobRels o = rels at inside ⊢
  induction rels generalizing image with
  | nil => exact total
  | cons p rels ih =>
    have here := inside p List.mem_cons_self
    refine ih _ ?_ fun p mem => inside p (List.mem_cons_of_mem _ mem)
    refine (@settleRel_outside _ env o p veneers got image 0 0 ?_ ?_).2.trans total
    · intro patch
      rw [total]
      exact here patch
    · intro _
      omega

/-- Where every relocation applies, the image is the whole one. -/
theorem Apply.whole (applied : Apply env o veneers got 0 o.layout.veneerOff.toNat) (fits : o.BlobFits) :
    wholeImage env o veneers got = some (settled env o veneers got) := by
  apply foldlM_settle
  refine Turns.mp applied applied fun image p mem one _ => ?_
  by_cases patch : patches p = true
  · have := siteOf_inside fits mem patch
    exact one patch (Nat.zero_le _) (by omega)
  · rw [patchRel, if_neg patch]
    rfl

/-- What goes to the sink after the pages: the pool, where there is one. -/
def poolChunk (o : PicObject) (veneers : List UInt32) : List (UInt32 × List UInt8) :=
  if veneers = [] then [] else [(o.layout.veneerOff, veneers.flatMap veneer)]

theorem flatMap_poolChunk : (poolChunk o veneers).flatMap Prod.snd = veneers.flatMap veneer := by
  unfold poolChunk
  split
  · rename_i none_
    rw [none_]
    rfl
  · exact List.flatMap_singleton _ _

theorem contiguous_poolChunk : Contiguous o.layout.veneerOff.toNat (poolChunk o veneers) := by
  unfold poolChunk
  split
  · trivial
  · rename_i some_
    refine ⟨rfl, fun none_ => ?_, trivial⟩
    cases veneers with
    | nil => exact some_ rfl
    | cons ix veneers =>
      dsimp only at none_
      rw [List.flatMap_cons, List.append_eq_nil_iff] at none_
      cases none_.1

theorem finish_sent {hdr : RpcAppHeader} {dataInit : List UInt8} {st : PicState (σ × List (UInt32 × List UInt8))} :
    Ensures (finish (logging env) hdr o dataInit st) fun r =>
      r.1.got = st.got ∧ r.2.2 = st.sink.2 ++ poolChunk o st.veneers := by
  unfold finish poolChunk
  dsimp only
  by_cases none_ : st.veneers = []
  · rw [if_pos none_, if_pos none_]
    refine Ensures.ite (fun _ => Ensures.error) fun _ => ?_
    refine Ensures.bind (P := fun _ => True) (fun _ _ => trivial) fun entryOff _ => ?_
    exact Ensures.pure ⟨rfl, (List.append_nil _).symm⟩
  · rw [if_neg none_, if_neg none_]
    refine Ensures.ite (fun _ => Ensures.error) fun _ => ?_
    refine Ensures.bind (P := fun _ => True) (fun _ _ => trivial) fun entryOff _ => ?_
    exact Ensures.pure ⟨rfl, rfl⟩

/-! ### Ascending sites -/

theorem filter_append_filter {α : Type*} {f : α → Nat} {l : List α} (sorted : l.Pairwise fun x y => f x ≤ f y)
    {a b c : Nat} (low : a ≤ b) (high : b ≤ c) :
    (l.filter fun x => a ≤ f x && f x < b) ++ (l.filter fun x => b ≤ f x && f x < c) =
      l.filter fun x => a ≤ f x && f x < c := by
  induction l with
  | nil => rfl
  | cons x l ih =>
    obtain ⟨least, tail⟩ := List.pairwise_cons.mp sorted
    have rest := ih tail
    have keep (d e : Nat) (here : d ≤ f x ∧ f x < e) :
        (x :: l).filter (fun x => d ≤ f x && f x < e) = x :: l.filter fun x => d ≤ f x && f x < e :=
      List.filter_cons_of_pos (by rwa [Bool.and_eq_true, decide_eq_true_eq, decide_eq_true_eq])
    have drop (d e : Nat) (here : ¬(d ≤ f x ∧ f x < e)) :
        (x :: l).filter (fun x => d ≤ f x && f x < e) = l.filter fun x => d ≤ f x && f x < e :=
      List.filter_cons_of_neg (by rwa [Bool.and_eq_true, decide_eq_true_eq, decide_eq_true_eq])
    by_cases front : a ≤ f x ∧ f x < b
    · rw [keep a b front, drop b c (by omega), keep a c (by omega), List.cons_append, rest]
    by_cases back : b ≤ f x ∧ f x < c
    · -- what is behind is no lower
      have none_ : (l.filter fun x => a ≤ f x && f x < b) = [] := by
        rw [List.filter_eq_nil_iff]
        intro y mem
        have := least y mem
        rw [Bool.and_eq_true, decide_eq_true_eq, decide_eq_true_eq]
        omega
      rw [none_, List.nil_append] at rest
      rw [drop a b front, keep b c back, keep a c (by omega), none_, List.nil_append, rest]
    · rw [drop a b front, drop b c back, drop a c (by omega), rest]

theorem relsIn_eq (a n : Nat) : relsIn o a n =
    ((blobRels o).filter patches).filter fun p => a ≤ (siteOf p).toNat && (siteOf p).toNat < a + n := by
  rw [relsIn, List.filter_filter]
  refine List.filter_congr fun p _ => ?_
  rw [Bool.and_comm, Bool.and_assoc]
  grind

theorem relsIn_append (ascending : Ascending o) (a m n : Nat) :
    relsIn o a m ++ relsIn o (a + m) n = relsIn o a (m + n) := by
  rw [relsIn_eq, relsIn_eq, relsIn_eq, ← Nat.add_assoc]
  exact filter_append_filter ascending (Nat.le_add_right _ _) (Nat.le_add_right _ _)

/-- Where the sites ascend, it does not matter how the blob is cut into pages. -/
theorem foldl_numberPage (ascending : Ascending o) {start : Nat} {pages : List (UInt32 × List UInt8)}
    (follow : Contiguous start pages) (n : List UInt32 × List PicGotEntry) :
    pages.foldl (numberPage env o) n =
      (relsIn o start (pages.flatMap Prod.snd).length).foldl (numberRel env o) n := by
  induction pages generalizing start n with
  | nil =>
    have none_ : relsIn o start 0 = [] := by
      rw [relsIn, List.filter_eq_nil_iff]
      intro p _
      simp only [Bool.and_eq_true, decide_eq_true_eq]
      omega
    rw [List.flatMap_nil, List.length_nil, none_, List.foldl_nil, List.foldl_nil]
  | cons page pages ih =>
    rw [List.foldl_cons, ih follow.2.2, numberPage, follow.1, ← List.foldl_append, relsIn_append ascending,
      List.flatMap_cons, List.length_append]

theorem relsIn_whole (fits : o.BlobFits) : relsIn o 0 o.layout.veneerOff.toNat = (blobRels o).filter patches := by
  rw [relsIn]
  refine List.filter_congr fun p mem => ?_
  cases patch : patches p with
  | false => rfl
  | true =>
    have := siteOf_inside fits mem patch
    rw [Bool.true_and, Bool.and_eq_true_iff, decide_eq_true_eq, decide_eq_true_eq]
    omega

/-- What an install sends, for an object whose layout fits. -/
structure Streamed (env : PicEnv σ) (o : PicObject) (m : PicRecipe) (sent : List (UInt32 × List UInt8)) : Prop where
  follow : Contiguous 0 sent
  whole : ∃ pages image, sent = pages ++ poolChunk o (numbering env o pages).1 ∧ m.got = (numbering env o pages).2 ∧
    wholeImage env o (numbering env o pages).1 (numbering env o pages).2 = some image ∧
    sent.flatMap Prod.snd = image ++ (numbering env o pages).1.flatMap veneer ∧
    (Ascending o → numbering env o pages = wholeNumbering env o)

theorem installObject_streamed (ends : o.NamesEnd) (fits : o.BlobFits) {hdr : RpcAppHeader} {namebuf : List UInt8}
    (buffer : namebuf.length = 96) {sink : σ} :
    Ensures (installObject (logging env) hdr o namebuf (sink, [])) fun r => Streamed env o r.1 r.2.2 := by
  unfold installObject
  refine Ensures.ite (fun _ => Ensures.error) fun _ => ?_
  have start : Remembers (logging env) o ⟨namebuf, fun _ => none, [], [], [], (sink, [])⟩ :=
    ⟨buffer, fun _ _ held => (by cases held), List.nodup_nil⟩
  have edge : Edge o (0 : UInt32).toNat := fun p _ _ less => absurd less (Nat.not_lt_zero _)
  refine (pagePass_sent ends fits start (Nat.zero_le _) edge).bind fun st sent => ?_
  obtain ⟨pages, sent⟩ := sent
  refine Ensures.ite (fun _ => Ensures.error) fun _ => ?_
  refine Ensures.bind (P := fun _ => True) (fun _ _ => trivial) fun dataInit _ => ?_
  refine (absPass_recorded ends sent.remembers).bind fun st' recorded => ?_
  obtain ⟨-, grows, got, sink_, veneers⟩ := recorded
  refine finish_sent.mono fun r finished => ?_
  obtain ⟨gotR, log⟩ := finished
  have numbers : (st'.veneers, st'.got) = numbering env o pages := by
    have first : (st.veneers, st.got) = pages.foldl (numberPage (logging env) o) ([], []) := sent.numbers
    have here : numbering env o pages =
        ((ramRels o).foldl (fun veneers p => numberSym (logging env) o veneers p.2.sym)
          (pages.foldl (numberPage (logging env) o) ([], [])).1,
        (pages.foldl (numberPage (logging env) o) ([], [])).2) := rfl
    rw [here, ← first, veneers, got]
  have pool : st'.veneers = (numbering env o pages).1 := congrArg Prod.fst numbers
  have table : st'.got = (numbering env o pages).2 := congrArg Prod.snd numbers
  obtain ⟨bytes, applied⟩ := sent.image st'.veneers st'.got grows.veneers grows.got
  have size : (settled (logging env) o st'.veneers st'.got).length = o.layout.veneerOff.toNat := length_settled fits
  have zero : (0 : UInt32).toNat = 0 := rfl
  rw [zero, Nat.sub_zero, stretch, List.drop_zero, ← size, List.take_length] at bytes
  have all : r.2.2 = pages ++ poolChunk o st'.veneers := by
    rw [log, sink_, sent.log]
    rfl
  constructor
  · rw [all]
    refine sent.follow.append ?_
    rw [bytes, size, zero, Nat.zero_add]
    exact contiguous_poolChunk
  · refine ⟨pages, settled (logging env) o st'.veneers st'.got, ?_, ?_, ?_, ?_, fun ascending => ?_⟩
    · rw [all, pool]
    · rw [gotR, table]
    · rw [← pool, ← table]
      exact applied.whole fits
    · rw [all, List.flatMap_append, bytes, flatMap_poolChunk, pool]
    · have cuts := @foldl_numberPage _ env _ ascending _ _ sent.follow ([], [])
      rw [bytes, size, zero, relsIn_whole fits] at cuts
      unfold numbering wholeNumbering
      rw [cuts]

/-! ### Sites that do not ascend -/

/-- An object with a section of 4104 zeros and two GOT words in it, the one at the end before the one at the start. -/
def crossedObject : AppSource where
  bytes :=
    Elf32Ehdr.codec.encode
      { ident := ⟨#[0x7F, 0x45, 0x4C, 0x46, 1, 1, 1, 0, 0, 0, 0, 0, 0, 0, 0, 0], size_elfIdent⟩
        type := 1, machine := 40, version := 1, entry := 0, phoff := 0, shoff := 196, flags := 0
        ehsize := 52, phentsize := 0, phnum := 0, shentsize := 40, shnum := 7, shstrndx := 5 } ++
    RpcAppHeader.codec.encode
      { magic := 0x52504341, apiMajor := 1, apiMinor := 24, name := Vector.replicate 24 0
        version := Vector.replicate 12 0, flags := 0 } ++
    Elf32Sym.codec.encode ⟨0, 0, 0, 0, 0, 0⟩ ++ Elf32Sym.codec.encode ⟨1, 0, 4, 0x12, 0, 2⟩ ++
    Elf32Sym.codec.encode ⟨0, 8, 4, 1, 0, 2⟩ ++
    [0] ++ entryName ++ [0, 0, 0] ++ [0] ++ headerName ++ [0, 0, 0, 0] ++
    Elf32Rel.codec.encode ⟨4100, 0x11A⟩ ++ Elf32Rel.codec.encode ⟨0, 0x21A⟩ ++
    [sampleSection 0 0 0 0 0 0, sampleSection 1 1 2 52 48 0, sampleSection 0 8 2 100 4104 0,
      sampleSection 0 2 0 100 48 4, sampleSection 0 3 0 148 10 0, sampleSection 0 3 0 160 17 0,
      { sampleSection 0 9 0 180 16 3 with info := 2 }].flatMap Elf32Shdr.codec.encode
  size := 476

/-- The blob patched as one page that is as long as it is. -/
def onePage {σ : Type} (env : PicEnv σ) (o : PicObject) (st : PicState σ) : Except LoadResult (PicPage σ) := do
  let bytes ← fillPage o 0 o.layout.veneerOff
  patchPage env o 0 o.layout.veneerOff { st, bytes, patchedTo := 0, emitEnd := o.layout.veneerOff }

/-- With one long page the GOT word at the end takes the first slot.  With pages of 4 KiB it takes the second. -/
theorem not_paged_is_whole :
    ¬∀ (env : PicEnv Unit) src namebuf hdr o m sent, readObject env src = .ok (hdr, o) →
      appPicInstall (logging env) src namebuf ((), []) = .ok (m, (), sent) →
      ∃ pg pool, onePage env o ⟨namebuf, fun _ => none, [], [], [], ()⟩ = .ok pg ∧
        sent.flatMap Prod.snd = pg.bytes ++ pool := by
  intro h
  have long : ((readObject sampleEnv crossedObject).toOption.bind fun r =>
      (onePage sampleEnv r.2 ⟨sampleBuf, fun _ => none, [], [], [], ()⟩).toOption.bind fun pg => pg.bytes[48]?) =
      some 4 := by decide +kernel
  have short : ((appPicInstall (logging sampleEnv) crossedObject sampleBuf ((), [])).toOption.bind fun r =>
      (r.2.2.flatMap Prod.snd)[48]?) = some 0 := by decide +kernel
  cases read : readObject sampleEnv crossedObject with
  | error e =>
    rw [read] at long
    cases long
  | ok r =>
    rw [read] at long
    cases installed : appPicInstall (logging sampleEnv) crossedObject sampleBuf ((), []) with
    | error e =>
      rw [installed] at short
      cases short
    | ok out =>
      rw [installed] at short
      obtain ⟨pg, pool, patched, same⟩ := h sampleEnv crossedObject sampleBuf r.1 r.2 out.1 out.2.2 read installed
      have long : ((onePage sampleEnv r.2 ⟨sampleBuf, fun _ => none, [], [], [], ()⟩).toOption.bind fun pg =>
        pg.bytes[48]?) = some 4 := long
      rw [patched] at long
      have long : pg.bytes[48]? = some 4 := long
      have short : (out.2.2.flatMap Prod.snd)[48]? = some 0 := short
      rw [same, List.getElem?_append_left (List.getElem?_eq_some_iff.mp long).1, long] at short
      cases short

/-! ### The install as a whole -/

/-- The pages and the pool, one behind the other, are the whole image with every relocation applied and the veneers. -/
theorem appPicInstall_streamed {src : AppSource} {namebuf : List UInt8} {sink sink' : σ} {hdr : RpcAppHeader}
    {o : PicObject} {m : PicRecipe} {sent : List (UInt32 × List UInt8)} (read : readObject env src = .ok (hdr, o))
    (fits : o.BlobFits) (ends : o.NamesEnd) (buffer : namebuf.length = 96)
    (installed : appPicInstall (logging env) src namebuf (sink, []) = .ok (m, sink', sent)) :
    Streamed env o m sent := by
  have read' : readObject (logging env) src = .ok (hdr, o) := read
  unfold appPicInstall at installed
  rw [read'] at installed
  exact installObject_streamed ends fits buffer _ installed

theorem appPicInstall_streamed_crossed : ∃ hdr o m sent, readObject sampleEnv crossedObject = .ok (hdr, o) ∧
    appPicInstall (logging sampleEnv) crossedObject sampleBuf ((), []) = .ok (m, (), sent) ∧
      Streamed sampleEnv o m sent := by
  have fine : ((readObject sampleEnv crossedObject).toOption.map fun r =>
      (decide r.2.BlobFits, decide r.2.NamesEnd)) = some (true, true) := by decide +kernel
  have accepted : (appPicInstall (logging sampleEnv) crossedObject sampleBuf ((), [])).isOk = true := by decide +kernel
  cases read : readObject sampleEnv crossedObject with
  | error e =>
    rw [read] at fine
    cases fine
  | ok r =>
    rw [read] at fine
    obtain ⟨fits, ends⟩ := Prod.mk.inj (Option.some.inj fine)
    cases installed : appPicInstall (logging sampleEnv) crossedObject sampleBuf ((), []) with
    | error e =>
      rw [installed] at accepted
      cases accepted
    | ok out =>
      exact ⟨r.1, r.2, out.1, out.2.2, rfl, rfl, appPicInstall_streamed read (of_decide_eq_true fits)
        (of_decide_eq_true ends) List.length_replicate installed⟩

end RPCortex.Loader
