import RPCortex.Abi.Drawing

/-! Whole drawing calls.  The loops keep the frames that they read, because what they draw is apart
from the words of those frames, and with a frame each of its pixels stays inside.  `draws_inside_iff`
says for which frames every call stays inside what the check accepted. -/

namespace RPCortex.Abi

open Lib

/-- The pixels of `fb` may be drawn, those of `gb` read, and drawing changes neither frame. -/
structure Scene (f : UInt32) (fb : FrameBuf) (g : UInt32) (gb : FrameBuf) (s : State) : Prop where
  dst : Ready f fb .write s
  src : ∃ acc, Ready g gb acc s

section Loops

variable {I : State → Prop} {s : State} {f g : UInt32} {fb gb : FrameBuf}
  {x y w h n c colour dx dy : Int32}

theorem times_wp {body : Int32 → Act Unit}
    (hbody : ∀ i t, I t → (body i).wp perform PixelsCovered (fun _ => I) t) (hs : I s) :
    (times n body).wp perform PixelsCovered (fun _ => I) s :=
  Prog.wp_forM (fun _ _ t ht => hbody _ t ht) hs

theorem upTo_wp {bound : Act Int32} {body : Int32 → Act Unit} {passes : Nat} {i : Int32}
    (hbound : ∀ t, I t → bound.wp perform PixelsCovered (fun _ => I) t)
    (hbody : ∀ i t, I t → (body i).wp perform PixelsCovered (fun _ => I) t) (hs : I s) :
    (upTo bound body passes i).wp perform PixelsCovered (fun _ => I) s := by
  induction passes generalizing i s with
  | zero => exact hs
  | succ passes ih =>
    refine (hbound s hs).bind fun b t ht => Prog.wp_ite (fun _ => ?_) fun _ => ht
    exact (hbody i t ht).bind fun _ u hu => ih hu

variable (sound : fb.Sound) (hf : fb.Apart f) (hg : fb.Apart g)

include sound hf hg

/-- Drawing a pixel keeps the scene. -/
theorem Scene.pixel (hs : Scene f fb g gb s) :
    (fbPixel f x y c).wp perform PixelsCovered (fun _ => Scene f fb g gb) s := by
  refine (fbPixel_wp sound hs.dst).mono fun _ t changed => ?_
  rcases changed with rfl | ⟨a, b, inside, rfl⟩
  · exact hs
  · obtain ⟨acc, src⟩ := hs.src
    exact ⟨hs.dst.upd hf inside, acc, src.upd hg inside⟩

theorem Scene.hline (hs : Scene f fb g gb s) :
    (fbHline f x y n c).wp perform PixelsCovered (fun _ => Scene f fb g gb) s :=
  times_wp (fun _ _ ht => ht.pixel sound hf hg) hs

theorem Scene.vline (hs : Scene f fb g gb s) :
    (fbVline f x y n c).wp perform PixelsCovered (fun _ => Scene f fb g gb) s :=
  times_wp (fun _ _ ht => ht.pixel sound hf hg) hs

theorem Scene.rect {filled : Int32} (hs : Scene f fb g gb s) :
    (fbRect f x y w h c filled).wp perform PixelsCovered (fun _ => Scene f fb g gb) s := by
  refine Prog.wp_ite (fun _ => hs) fun _ => Prog.wp_ite (fun _ => ?_) fun _ => ?_
  · exact times_wp (fun _ _ ht => ht.hline sound hf hg) hs
  · refine (hs.hline sound hf hg).bind fun _ _ h1 => ?_
    refine (h1.hline sound hf hg).bind fun _ _ h2 => ?_
    exact (h2.vline sound hf hg).bind fun _ _ h3 => h3.vline sound hf hg

theorem Scene.text {passes : Nat} {p : UInt32} (hs : Scene f fb g gb s) :
    (fbText passes f p x y c).wp perform PixelsCovered (fun _ => Scene f fb g gb) s := by
  have chars : ∀ passes k x s, Scene f fb g gb s →
      (fbChars f p c y passes k x).wp perform PixelsCovered (fun _ => Scene f fb g gb) s := by
    intro passes
    induction passes with
    | zero => exact fun _ _ _ hs => hs
    | succ passes ih =>
      intro k x s hs
      refine Prog.wp_call_bind.mpr ⟨trivial, fun _ => Prog.wp_ite (fun _ => hs) fun _ => ?_⟩
      refine Prog.wp.bind ?_ fun _ _ ht => ih _ _ _ ht
      refine Prog.wp_forM (fun _ _ _ ht => Prog.wp_forM (fun _ _ _ hu => ?_) ht) hs
      exact Prog.wp_ite (fun _ => hu.pixel sound hf hg) fun _ => hu
  exact Prog.wp_ite (fun _ => hs) fun _ => chars _ _ _ _ hs

omit sound hf hg in
/-- Reading a frame of the scene keeps the scene. -/
theorem Scene.get (soundG : gb.Sound) (hs : Scene f fb g gb s) :
    (fbGet g x y).wp perform PixelsCovered (fun _ => Scene f fb g gb) s := by
  obtain ⟨acc, src⟩ := hs.src
  exact (fbGet_wp soundG src).mono fun _ t same => same ▸ hs

theorem Scene.blit (soundG : gb.Sound) (hs : Scene f fb g gb s) :
    (fbBlit f g x y c).wp perform PixelsCovered (fun _ => Scene f fb g gb) s := by
  refine Prog.wp_ite (fun _ => hs) fun _ => ?_
  refine upTo_wp (fun _ ht => wp_loadH.mpr ht) (fun _ _ ht => ?_) hs
  refine upTo_wp (fun _ hu => wp_loadW.mpr hu) (fun _ _ hu => ?_) ht
  refine (hu.get soundG).bind fun _ _ hv => Prog.wp_ite (fun _ => hv) fun _ => ?_
  exact hv.pixel sound hf hg

omit hg in
theorem Scene.scroll (hs : Scene f fb f fb s) :
    (fbScroll f dx dy).wp perform PixelsCovered (fun _ => Scene f fb f fb) s := by
  refine Prog.wp_ite (fun _ => hs) fun _ => ?_
  rw [Prog.wp_bind, wp_loadFrame]
  refine Prog.wp_ite (fun _ => hs) fun _ => ?_
  refine upTo_wp (fun _ ht => wp_loadH.mpr ht) (fun _ _ ht => ?_) hs
  refine upTo_wp (fun _ hu => wp_loadW.mpr hu) (fun _ _ hu => ?_) ht
  unfold scrollPixel
  rw [Prog.wp_bind, wp_loadFrame]
  refine Prog.wp_ite (fun _ => ?_) fun _ => hu.pixel sound hf hf
  exact (hu.get sound).bind fun _ _ hv => hv.pixel sound hf hf

end Loops

/-! ### The check -/

/-- Whether `ok_fb` accepts the frame at `f`. -/
def frameOk (mem : Option TaskAppMem) (bytes : UInt32 → UInt8) (f : UInt32) (acc : PtrAccess) :
    Bool :=
  let fb := frameAt bytes f
  ptrOk mem f sizeofFrame .read && !(fb.w ≤ 0 ∨ fb.h ≤ 0) && !(fbBytes fb.w fb.h ≤ 0) &&
    ptrOk mem fb.buf fb.need acc

/-- The state after the check of the frame at `f`. -/
def State.granted (s : State) (f : UInt32) (acc : PtrAccess) : State :=
  { s with accepted := (frameAt s.bytes f).range f acc :: ⟨.arg f, f, sizeofFrame, .read⟩ ::
      s.accepted }

section Checks

variable {mem : Option TaskAppMem} {s : State} {f : UInt32} {acc : PtrAccess} {draw : Act Unit}

theorem wp_checked : (checked mem f acc draw).wp perform PixelsCovered (fun _ _ => True) s ↔
    (frameOk mem s.bytes f acc = true →
      draw.wp perform PixelsCovered (fun _ _ => True) (s.granted f acc)) := by
  simp only [checked, okFb, Prog.wp_bind]
  rw [wp_okRange trivial]
  by_cases arg : ptrOk mem f sizeofFrame .read = true
  · rw [if_pos arg, if_pos rfl, Prog.wp_bind, wp_loadFrame]
    by_cases side : (frameAt s.bytes f).w ≤ 0 ∨ (frameAt s.bytes f).h ≤ 0
    · rw [if_pos side]
      simp [Prog.wp_pure, frameOk, side]
    · rw [if_neg side]
      by_cases none : fbBytes (frameAt s.bytes f).w (frameAt s.bytes f).h ≤ 0
      · rw [if_pos none]
        simp [Prog.wp_pure, frameOk, none]
      · rw [if_neg none, wp_okRange trivial]
        show (if ptrOk mem (frameAt s.bytes f).buf (frameAt s.bytes f).need acc = true then _
          else _) ↔ _
        by_cases room : ptrOk mem (frameAt s.bytes f).buf (frameAt s.bytes f).need acc = true
        · have ok : frameOk mem s.bytes f acc = true := by
            simp [frameOk, arg, room, none, side]
          rw [if_pos room, if_pos rfl]
          exact ⟨fun h _ => h, fun h => h ok⟩
        · rw [if_neg room]
          simp [Prog.wp_pure, frameOk, room]
  · rw [if_neg arg]
    simp [Prog.wp_pure, frameOk, arg]

/-- A frame that was accepted counts at least one byte. -/
theorem pos_of_frameOk {bytes : UInt32 → UInt8} (h : frameOk mem bytes f acc = true) :
    0 < (fbBytes (frameAt bytes f).w (frameAt bytes f).h).toInt ∧
      0 < (frameAt bytes f).w.toInt ∧ 0 < (frameAt bytes f).h.toInt := by
  simp only [frameOk, Bool.and_eq_true, Bool.not_eq_true', decide_eq_false_iff_not, not_or,
    Int32.le_iff_toInt_le, Int.not_le] at h
  exact ⟨h.1.2, h.1.1.2⟩

/-- The check readies the frame. -/
theorem ready_granted : Ready f (frameAt s.bytes f) acc (s.granted f acc) :=
  ⟨rfl, List.mem_cons_self⟩

end Checks

/-! ### Drawing calls -/

/-- In every run of the call from memory `bytes`, each access to the buffer of a frame lies in the
bytes that the check of that frame accepted. -/
def Inside (mem : Option TaskAppMem) (bytes : UInt32 → UInt8) (f : UInt32) (d : Draw) : Prop :=
  ∀ passes, ∀ v ∈ touches (d.run mem passes f) bytes, PixelsCovered v.1 v.2

/-- The call reads its frames once, or what it draws is apart from their words and the source of a
blit fits. -/
def Draw.Steady (bytes : UInt32 → UInt8) (f : UInt32) : Draw → Prop
  | .fill _ | .pixel _ _ _ | .get _ _ => True
  | .hline _ _ _ _ | .rect _ _ _ _ _ _ | .text _ _ _ _ | .scroll _ _ => (frameAt bytes f).Apart f
  | .blit s _ _ _ =>
    (frameAt bytes f).Apart f ∧ (frameAt bytes f).Apart s ∧ (frameAt bytes s).Fits

section Draws

variable {mem : Option TaskAppMem} {bytes : UInt32 → UInt8} {f : UInt32} {d : Draw}

theorem inside_iff : Inside mem bytes f d ↔
    ∀ passes, (d.run mem passes f).wp perform PixelsCovered (fun _ _ => True) ⟨bytes, []⟩ :=
  ⟨fun h passes => Prog.wp_of_asked (h passes), fun h passes => (h passes).asked⟩

theorem Ready.accept {g : UInt32} {gb : FrameBuf} {acc : PtrAccess} {s : State} {r : Range}
    (h : Ready g gb acc s) : Ready g gb acc { s with accepted := r :: s.accepted } :=
  ⟨h.frame, List.mem_cons_of_mem _ h.accepted⟩

/-- The check of a string changes no byte. -/
theorem Ready.okS {g p : UInt32} {gb : FrameBuf} {acc : PtrAccess} {s : State}
    (h : Ready g gb acc s) :
    (okS mem p).wp perform PixelsCovered (fun _ => Ready g gb acc) s := by
  have scan : ∀ room k, (scanString p room k).wp perform PixelsCovered (fun _ t => t = s) s := by
    intro room
    induction room with
    | zero => exact fun _ => rfl
    | succ room ih =>
      exact fun k => Prog.wp_call_bind.mpr
        ⟨trivial, fun _ => Prog.wp_ite (fun _ => rfl) fun _ => ih _⟩
  cases mem with
  | none => exact h
  | some m =>
    have found : (ptrStrOk m p).wp perform PixelsCovered (fun _ t => t = s) s := by
      refine Prog.wp_ite (fun _ => rfl) fun _ => ?_
      split
      · exact scan _ _
      · exact rfl
    refine found.bind fun len t same => ?_
    subst same
    cases len with
    | none => exact h
    | some len => exact Prog.wp_call_bind.mpr ⟨trivial, fun _ => h.accept⟩

/-- A steady call on a frame that fits stays inside, from any state. -/
theorem Draw.run_wp {s : State} {passes : Nat} (fits : (frameAt s.bytes f).Fits)
    (steady : d.Steady s.bytes f) :
    (d.run mem passes f).wp perform PixelsCovered (fun _ _ => True) s := by
  have sound {acc : PtrAccess} (ok : frameOk mem s.bytes f acc = true) :
      (frameAt s.bytes f).Sound := ⟨fits, (pos_of_frameOk ok).1⟩
  have ready (acc : PtrAccess) : Ready f (frameAt s.bytes f) acc (s.granted f acc) := ready_granted
  have scene : Scene f (frameAt s.bytes f) f (frameAt s.bytes f) (s.granted f .write) :=
    ⟨ready .write, .write, ready .write⟩
  cases d with
  | fill c => exact (wp_checked).mpr fun _ => fbFill_wp (ready .write)
  | pixel x y c =>
    exact (wp_checked).mpr fun ok =>
      (fbPixel_wp (sound ok) (ready .write)).mono fun _ _ _ => trivial
  | get x y =>
    refine (wp_checked).mpr fun ok => ?_
    exact (fbGet_wp (sound ok) (ready .read)).bind fun _ _ _ => trivial
  | hline x y n c =>
    exact (wp_checked).mpr fun ok =>
      (scene.hline (sound ok) steady steady).mono fun _ _ _ => trivial
  | rect x y w h c fi =>
    exact (wp_checked).mpr fun ok => (scene.rect (sound ok) steady steady).mono fun _ _ _ => trivial
  | text p x y c =>
    refine (wp_checked).mpr fun ok => (ready .write).okS.bind fun named t ht => ?_
    refine Prog.wp_ite (fun _ => ?_) fun _ => trivial
    have scene : Scene f (frameAt s.bytes f) f (frameAt s.bytes f) t := ⟨ht, _, ht⟩
    exact (scene.text (sound ok) steady steady).mono fun _ _ _ => trivial
  | blit p x y t =>
    obtain ⟨own, other, fits'⟩ := steady
    refine (wp_checked).mpr fun ok => (wp_checked).mpr fun ok' => ?_
    have source : (frameAt s.bytes p).Sound := ⟨fits', (pos_of_frameOk ok').1⟩
    have scene : Scene f (frameAt s.bytes f) p (frameAt s.bytes p)
        ((s.granted f .write).granted p .read) :=
      ⟨(ready .write).accept.accept, .read, ready_granted (s := s.granted f .write)⟩
    exact (scene.blit (sound ok) own other source).mono fun _ _ _ => trivial
  | scroll dx dy =>
    exact (wp_checked).mpr fun ok => (scene.scroll (sound ok) steady).mono fun _ _ _ => trivial

theorem ne_zero_of_ptrOk {m : TaskAppMem} {p len : UInt32} {acc : PtrAccess}
    (h : ptrOk (some m) p len acc = true) (pos : len ≠ 0) : p ≠ 0 := by
  rintro rfl
  simp [ptrOk, pos] at h

/-- A pixel that is drawn is loaded from its byte. -/
theorem covered_of_fbPixel {s : State} {x y c : Int32} (hf : f ≠ 0)
    (hbuf : (frameAt s.bytes f).buf ≠ 0)
    (drawn : ¬(x < 0 ∨ y < 0 ∨ (frameAt s.bytes f).w ≤ x ∨ (frameAt s.bytes f).h ≤ y))
    (h : (fbPixel f x y c).wp perform PixelsCovered (fun _ _ => True) s) :
    Covered s (.load (.pixels f) (pixelAt (frameAt s.bytes f) x y)) := by
  unfold fbPixel at h
  rw [if_neg hf, Prog.wp_bind, wp_loadFrame, if_neg hbuf, if_neg drawn, Prog.wp_call_bind] at h
  exact h.1

/-- On a frame that does not fit, one pixel is outside. -/
theorem exists_pixel_outside {m : TaskAppMem} (ok : frameOk (some m) bytes f .write = true)
    (big : ¬(frameAt bytes f).Fits) : ∃ x y, ¬Inside (some m) bytes f (.pixel x y 1) := by
  obtain ⟨pos, w, h⟩ := pos_of_frameOk ok
  obtain ⟨x, y, hx, hy, xw, yh, last⟩ := exists_pixel_at_need big pos w h
  refine ⟨x, y, fun inside => ?_⟩
  have checks := ok
  simp only [frameOk, Bool.and_eq_true] at checks
  have hf := ne_zero_of_ptrOk checks.1.1.1 (by decide)
  have hneed : (frameAt bytes f).need ≠ 0 := by
    intro zero
    have := toNat_toUInt32 pos.le
    have none := congrArg UInt32.toNat zero
    unfold FrameBuf.need at none
    rw [none] at this
    simp at this
    omega
  have hbuf := ne_zero_of_ptrOk checks.2 hneed
  have drawn : ¬(x < 0 ∨ y < 0 ∨ (frameAt bytes f).w ≤ x ∨ (frameAt bytes f).h ≤ y) := by
    simp only [Int32.lt_iff_toInt_lt, Int32.le_iff_toInt_le, not_or, Int.not_lt, Int.not_le]
    exact ⟨hx, hy, xw, yh⟩
  have run : (fbPixel f x y 1).wp perform PixelsCovered (fun _ _ => True)
      (State.granted ⟨bytes, []⟩ f .write) :=
    (wp_checked (s := ⟨bytes, []⟩)).mp (inside_iff.mp inside 0) ok
  obtain ⟨r, mem, via, covered, _⟩ :=
    covered_of_fbPixel (s := State.granted ⟨bytes, []⟩ f .write) hf hbuf drawn run
  -- the only accepted range for pixels ends right before this one
  rcases List.mem_cons.mp mem with rfl | mem
  · have offset : pixelAt (frameAt bytes f) x y - (frameAt bytes f).buf = _ := pixelAt_sub
    rw [last] at offset
    replace covered : pixelAt (frameAt bytes f) x y - (frameAt bytes f).buf <
      (frameAt bytes f).need := covered
    rw [offset] at covered
    exact UInt32.lt_irrefl _ covered
  · obtain rfl := List.mem_singleton.mp mem
    cases via

/-- A frame that the check accepts keeps every steady call inside exactly when it fits. -/
theorem draws_inside_iff {m : TaskAppMem} (ok : frameOk (some m) bytes f .write = true) :
    (∀ d : Draw, d.Steady bytes f → Inside (some m) bytes f d) ↔ (frameAt bytes f).Fits := by
  refine ⟨fun h => ?_, fun fits d steady => (inside_iff).mpr fun passes => ?_⟩
  · by_contra big
    obtain ⟨x, y, outside⟩ := exists_pixel_outside ok big
    exact outside (h _ trivial)
  · exact Draw.run_wp (s := ⟨bytes, []⟩) fits steady

end Draws

/-- A package with 64 KB of data at `0x20000000`. -/
def somePackage : TaskAppMem := ⟨0x10400000, 0x1000, 0x20000000, 0x10010, 0, 0, 0, 0, 0, 0⟩

/-- Memory that holds the words of a frame at `0x20000000`. -/
def frameMemory (words : List UInt8) : UInt32 → UInt8 := fun a =>
  words.getD (a - 0x20000000).toNat 0

theorem draws_inside_iff_panel :
    (∀ d : Draw, d.Steady (frameMemory [0, 1, 0, 0x20, 128, 0, 0, 0, 64, 0, 0, 0]) 0x20000000 →
      Inside (some somePackage) (frameMemory [0, 1, 0, 0x20, 128, 0, 0, 0, 64, 0, 0, 0])
        0x20000000 d) ↔
      (frameAt (frameMemory [0, 1, 0, 0x20, 128, 0, 0, 0, 64, 0, 0, 0]) 0x20000000).Fits :=
  draws_inside_iff (by decide)

/-- 65537 by 524288 pixels count as 65536 bytes. -/
theorem not_all_draws_inside :
    ¬∀ (mem : TaskAppMem) (bytes : UInt32 → UInt8) (f : UInt32) (d : Draw),
      Inside (some mem) bytes f d := by
  intro h
  have outside : ¬∀ v ∈ touches (Draw.run (some somePackage) 0 0x20000000 (.pixel 65536 0 1))
      (frameMemory [0x10, 0, 0, 0x20, 1, 0, 1, 0, 0, 0, 8, 0]), PixelsCovered v.1 v.2 := by decide
  exact outside (h somePackage _ 0x20000000 (.pixel 65536 0 1) 0)

end RPCortex.Abi
