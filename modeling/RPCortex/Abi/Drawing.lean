import RPCortex.Abi.Framebuf

/-! When a drawing call stays inside the bytes that the check accepted.  The check multiplies width
and pages in 32 bits; a frame `Fits` when the exact product is below `2 ^ 31`, and then every pixel
is inside.  A drawing of several pixels also has to leave the words of its frame alone, which it
does when they are apart from the pixels. -/

namespace RPCortex.Abi

open Lib

/-- The exact number of bytes of a frame is an `int`. -/
def FrameBuf.Fits (fb : FrameBuf) : Prop := fb.w.toInt * ((fb.h.toInt + 7) / 8) < 2 ^ 31

/-- What `fb_bytes` gives, as a length. -/
def FrameBuf.need (fb : FrameBuf) : UInt32 := (fbBytes fb.w fb.h).toUInt32

/-! ### Sizes -/

section Sizes

variable {x y a : Int32} {fb : FrameBuf}

theorem toInt_shift : (y >>> 3).toInt = y.toInt / 8 := by
  show (y.toBitVec.sshiftRight' _).toInt = _
  rw [BitVec.toInt_sshiftRight', Int.shiftRight_eq_div_pow]
  rfl

/-- `h + 7` pages, counted exactly. -/
theorem toInt_pages (pos : 0 < fb.h.toInt) :
    ((fb.h + 7) / 8).toInt = ((fb.h.toInt + 7) / 8) ∨
      2 ^ 31 - 7 ≤ fb.h.toInt ∧ ((fb.h + 7) / 8).toInt < 0 ∧ -2 ^ 28 ≤ ((fb.h + 7) / 8).toInt := by
  have lt := fb.h.toInt_lt
  have sum : (fb.h + 7).toInt = (fb.h.toInt + 7).bmod (2 ^ 32) := by
    rw [Int32.toInt_add]
    rfl
  rw [Int32.toInt_div_of_ne_right _ _ (by decide), sum, show (8 : Int32).toInt = 8 from rfl]
  by_cases small : fb.h.toInt + 7 < 2 ^ 31
  · left
    rw [Int.bmod_eq_of_le (by omega) (by omega), Int.tdiv_eq_ediv_of_nonneg (by omega)]
  · right
    have wrapped : (fb.h.toInt + 7).bmod (2 ^ 32) = fb.h.toInt + 7 - 2 ^ 32 := by
      rw [Int.bmod_def]
      omega
    rw [wrapped]
    refine ⟨by omega, ?_, ?_⟩ <;> grind

/-- What `fb_bytes` computes is exact when it is positive and the product fits. -/
theorem toInt_fbBytes (fits : fb.Fits) (pos : 0 < (fbBytes fb.w fb.h).toInt) (w : 0 < fb.w.toInt)
    (h : 0 < fb.h.toInt) : (fbBytes fb.w fb.h).toInt = fb.w.toInt * ((fb.h.toInt + 7) / 8) := by
  have mul : (fbBytes fb.w fb.h).toInt = (fb.w.toInt * ((fb.h + 7) / 8).toInt).bmod (2 ^ 32) :=
    Int32.toInt_mul _ _
  unfold FrameBuf.Fits at fits
  rcases toInt_pages h with exact_ | ⟨tall, negative, above⟩
  · have nonneg : 0 ≤ fb.w.toInt * ((fb.h.toInt + 7) / 8) :=
      Int.mul_nonneg (by omega) (by omega)
    rw [mul, exact_]
    exact Int.bmod_eq_of_le (by omega) (by omega)
  · -- `h + 7` overflows: the pages are negative and the check refuses
    have pages : (fb.h.toInt + 7) / 8 = 2 ^ 28 := by have := fb.h.toInt_lt; omega
    rw [pages] at fits
    have narrow : fb.w.toInt ≤ 7 := by omega
    have low : -(7 * 2 ^ 28) ≤ fb.w.toInt * ((fb.h + 7) / 8).toInt := by nlinarith
    have high : fb.w.toInt * ((fb.h + 7) / 8).toInt < 0 := by nlinarith
    rw [mul, Int.bmod_eq_of_le (by omega) (by omega)] at pos
    omega

/-- A pixel of a frame that fits has a byte. -/
theorem offset_lt (fits : fb.Fits) (pos : 0 < (fbBytes fb.w fb.h).toInt) (hx : 0 ≤ x.toInt)
    (hy : 0 ≤ y.toInt) (xw : x.toInt < fb.w.toInt) (yh : y.toInt < fb.h.toInt) :
    ((y >>> 3) * fb.w + x).toUInt32 < fb.need := by
  have total := toInt_fbBytes fits pos (by omega) (by omega)
  unfold FrameBuf.Fits at fits
  generalize pages : (fb.h.toInt + 7) / 8 = n at *
  have page : y.toInt / 8 ≤ n - 1 := by omega
  have row : y.toInt / 8 * fb.w.toInt ≤ (n - 1) * fb.w.toInt :=
    Int.mul_le_mul_of_nonneg_right page (by omega)
  have start : 0 ≤ y.toInt / 8 * fb.w.toInt := Int.mul_nonneg (by omega) (by omega)
  have inside : y.toInt / 8 * fb.w.toInt + x.toInt < fb.w.toInt * n := by
    rw [Int.sub_mul, Int.mul_comm n] at row
    omega
  have index : ((y >>> 3) * fb.w + x).toInt = y.toInt / 8 * fb.w.toInt + x.toInt := by
    have product : ((y >>> 3) * fb.w).toInt = y.toInt / 8 * fb.w.toInt := by
      rw [Int32.toInt_mul, toInt_shift, Int.bmod_eq_of_le (by omega) (by omega)]
    rw [Int32.toInt_add, product, Int.bmod_eq_of_le (by omega) (by omega)]
  have below := toNat_toUInt32 (a := (y >>> 3) * fb.w + x) (by omega)
  have above := toNat_toUInt32 (a := fbBytes fb.w fb.h) (by omega)
  rw [UInt32.lt_iff_toNat_lt]
  unfold FrameBuf.need
  omega

/-- A frame that does not fit has a pixel right behind the bytes that were counted. -/
theorem exists_pixel_at_need (big : ¬fb.Fits) (pos : 0 < (fbBytes fb.w fb.h).toInt)
    (w : 0 < fb.w.toInt) (h : 0 < fb.h.toInt) : ∃ x y : Int32, 0 ≤ x.toInt ∧ 0 ≤ y.toInt ∧
      x.toInt < fb.w.toInt ∧ y.toInt < fb.h.toInt ∧
      ((y >>> 3) * fb.w + x).toUInt32 = fb.need := by
  unfold FrameBuf.Fits at big
  have top := (fbBytes fb.w fb.h).toInt_lt
  have hTop := fb.h.toInt_lt
  have wTop := fb.w.toInt_lt
  generalize need : (fbBytes fb.w fb.h).toInt = n at *
  generalize pages : (fb.h.toInt + 7) / 8 = k at *
  have split := Int.mul_ediv_add_emod n fb.w.toInt
  have rest := Int.emod_lt_of_pos n w
  have rest' := Int.emod_nonneg n (by omega : fb.w.toInt ≠ 0)
  have page' : 0 ≤ n / fb.w.toInt := Int.ediv_nonneg (by omega) (by omega)
  have page : n / fb.w.toInt < k := Int.ediv_lt_of_lt_mul w (by rw [Int.mul_comm]; omega)
  have xInt : (Int32.ofInt (n % fb.w.toInt)).toInt = n % fb.w.toInt :=
    Int32.toInt_ofInt_of_le (by omega) (by omega)
  have yInt : (Int32.ofInt (8 * (n / fb.w.toInt))).toInt = 8 * (n / fb.w.toInt) :=
    Int32.toInt_ofInt_of_le (by omega) (by omega)
  refine ⟨.ofInt (n % fb.w.toInt), .ofInt (8 * (n / fb.w.toInt)), by omega, by omega, by omega,
    by omega, ?_⟩
  have index : ((Int32.ofInt (8 * (n / fb.w.toInt)) >>> 3) * fb.w +
      Int32.ofInt (n % fb.w.toInt)).toInt = n := by
    have product : ((Int32.ofInt (8 * (n / fb.w.toInt)) >>> 3) * fb.w).toInt =
        n / fb.w.toInt * fb.w.toInt := by
      rw [Int32.toInt_mul, toInt_shift, yInt, Int.mul_ediv_cancel_left _ (by decide), Int.mul_comm]
      refine Int.bmod_eq_of_le ?_ ?_
      · have := Int.mul_nonneg w.le page'
        omega
      · omega
    rw [Int32.toInt_add, product, xInt, Int.mul_comm, split,
      Int.bmod_eq_of_le (by omega) (by omega)]
  have same : (Int32.ofInt (8 * (n / fb.w.toInt)) >>> 3) * fb.w + Int32.ofInt (n % fb.w.toInt) =
      fbBytes fb.w fb.h := Int32.toInt_inj.mp (index.trans need.symm)
  rw [same]
  rfl

end Sizes

/-! ### Accesses -/

/-- An access to the buffer of a frame lies in an accepted range. -/
def PixelsCovered (s : State) (op : Op) : Prop :=
  match op with
  | .load (.pixels _) _ | .store (.pixels _) _ _ => Covered s op
  | _ => True

instance (s : State) : (op : Op) → Decidable (PixelsCovered s op)
  | .load (.pixels f) a => inferInstanceAs (Decidable (Covered s (.load (.pixels f) a)))
  | .store (.pixels f) a b => inferInstanceAs (Decidable (Covered s (.store (.pixels f) a b)))
  | .load (.arg _) _ | .store (.arg _) _ _ | .probe _ | .accept _ =>
    inferInstanceAs (Decidable True)

/-- The range that the check of a frame accepts. -/
def FrameBuf.range (f : UInt32) (fb : FrameBuf) (acc : PtrAccess) : Range :=
  ⟨.pixels f, fb.buf, fb.need, acc⟩

/-- The words of the frame at `g` are not among the pixels of `fb`. -/
def FrameBuf.Apart (fb : FrameBuf) (g : UInt32) : Prop :=
  ∀ a : UInt32, a - fb.buf < fb.need → ¬a - g < sizeofFrame

/-- A frame whose size `fb_bytes` computes exactly. -/
structure FrameBuf.Sound (fb : FrameBuf) : Prop where
  fits : fb.Fits
  pos : 0 < (fbBytes fb.w fb.h).toInt

/-- The frame at `f` is `fb`, and its pixels are accepted. -/
structure Ready (f : UInt32) (fb : FrameBuf) (acc : PtrAccess) (s : State) : Prop where
  frame : frameAt s.bytes f = fb
  accepted : fb.range f acc ∈ s.accepted

section Accesses

variable {α : Type} {s t : State} {f g a p : UInt32} {b : UInt8} {fb gb : FrameBuf}
  {acc : PtrAccess} {x y c : Int32}

theorem wp_loadWord {Q : UInt32 → State → Prop} :
    (loadWord p a).wp perform PixelsCovered Q s ↔ Q (wordAt s.bytes a) s := by
  simp only [loadWord, Prog.wp_call_bind, Prog.wp_pure, PixelsCovered, perform_load, true_and,
    forall_const, wordAt]

theorem wp_loadW {Q : Int32 → State → Prop} :
    (loadW f).wp perform PixelsCovered Q s ↔ Q (frameAt s.bytes f).w s := by
  simp only [loadW, Prog.wp_bind, wp_loadWord, Prog.wp_pure, frameAt]

theorem wp_loadH {Q : Int32 → State → Prop} :
    (loadH f).wp perform PixelsCovered Q s ↔ Q (frameAt s.bytes f).h s := by
  simp only [loadH, Prog.wp_bind, wp_loadWord, Prog.wp_pure, frameAt]

theorem wp_loadFrame {Q : FrameBuf → State → Prop} :
    (loadFrame f).wp perform PixelsCovered Q s ↔ Q (frameAt s.bytes f) s := by
  simp only [loadFrame, Prog.wp_bind, wp_loadWord, wp_loadW, wp_loadH, Prog.wp_pure, frameAt]

theorem wordAt_congr {bytes bytes' : UInt32 → UInt8} (first : bytes a = bytes' a)
    (rest : ∀ k : UInt32, k < 4 → bytes (a + k) = bytes' (a + k)) :
    wordAt bytes a = wordAt bytes' a := by
  unfold wordAt
  rw [first, rest 1 (by decide), rest 2 (by decide), rest 3 (by decide)]

/-- A store away from the words of a frame leaves the frame. -/
theorem frameAt_upd (away : ¬a - f < sizeofFrame) (bytes : UInt32 → UInt8) :
    frameAt (upd bytes a b) f = frameAt bytes f := by
  have same : ∀ k : UInt32, k < sizeofFrame → upd bytes a b (f + k) = bytes (f + k) := by
    intro k hk
    refine upd_ne fun eq => away ?_
    rw [← eq, UInt32.add_comm, UInt32.add_sub_cancel]
    exact hk
  have word : ∀ d : UInt32, d.toNat ≤ 8 → wordAt (upd bytes a b) (f + d) = wordAt bytes (f + d) := by
    intro d hd
    refine wordAt_congr (same d ?_) fun k hk => ?_
    · rw [UInt32.lt_iff_toNat_lt]
      exact Nat.lt_of_le_of_lt hd (by decide)
    · rw [UInt32.add_assoc]
      refine same _ ?_
      rw [UInt32.lt_iff_toNat_lt] at hk ⊢
      have four : (4 : UInt32).toNat = 4 := rfl
      have twelve : sizeofFrame.toNat = 12 := rfl
      rw [UInt32.toNat_add]
      omega
  have first := word 0 (by decide)
  rw [UInt32.add_zero] at first
  rw [frameAt, first, word 4 (by decide), word 8 (by decide)]
  rfl

theorem pixelAt_sub : pixelAt fb x y - fb.buf = ((y >>> 3) * fb.w + x).toUInt32 := by
  rw [pixelAt, UInt32.add_comm, UInt32.add_sub_cancel]

/-- What is clipped is not drawn, and what is not clipped is inside. -/
theorem pixelAt_inside (sound : fb.Sound) (drawn : ¬(x < 0 ∨ y < 0 ∨ fb.w ≤ x ∨ fb.h ≤ y)) :
    pixelAt fb x y - fb.buf < fb.need := by
  simp only [Int32.lt_iff_toInt_lt, Int32.le_iff_toInt_le, not_or, Int.not_lt, Int.not_le] at drawn
  obtain ⟨hx, hy, xw, yh⟩ := drawn
  rw [pixelAt_sub]
  exact offset_lt sound.fits sound.pos hx hy xw yh

theorem Ready.load (h : Ready f fb acc s) (inside : a - fb.buf < fb.need) :
    PixelsCovered s (.load (.pixels f) a) :=
  ⟨_, h.accepted, rfl, inside, fun no => by cases no⟩

theorem Ready.store (h : Ready f fb .write s) (inside : a - fb.buf < fb.need) :
    PixelsCovered s (.store (.pixels f) a b) := ⟨_, h.accepted, rfl, inside, fun _ => rfl⟩

theorem Ready.upd (h : Ready g gb acc s) (apart : fb.Apart g) (inside : a - fb.buf < fb.need) :
    Ready g gb acc { s with bytes := upd s.bytes a b } :=
  ⟨(frameAt_upd (apart a inside) _).trans h.frame, h.accepted⟩

/-- A pixel that is read is inside. -/
theorem fbGet_wp (sound : fb.Sound) (h : Ready f fb acc s) :
    (fbGet f x y).wp perform PixelsCovered (fun _ t => t = s) s := by
  unfold fbGet
  refine Prog.wp_ite (fun _ => rfl) fun _ => ?_
  rw [Prog.wp_bind, wp_loadFrame, h.frame]
  refine Prog.wp_ite (fun _ => rfl) fun _ => Prog.wp_ite (fun _ => rfl) fun drawn => ?_
  exact Prog.wp_call_bind.mpr ⟨h.load (pixelAt_inside sound drawn), fun _ => rfl⟩

/-- A pixel that is drawn is inside, and changes no other byte. -/
theorem fbPixel_wp (sound : fb.Sound) (h : Ready f fb .write s) :
    (fbPixel f x y c).wp perform PixelsCovered
      (fun _ t => t = s ∨ ∃ a b, a - fb.buf < fb.need ∧ t = { s with bytes := upd s.bytes a b })
      s := by
  unfold fbPixel
  refine Prog.wp_ite (fun _ => .inl rfl) fun _ => ?_
  rw [Prog.wp_bind, wp_loadFrame, h.frame]
  refine Prog.wp_ite (fun _ => .inl rfl) fun _ => Prog.wp_ite (fun _ => .inl rfl) fun drawn => ?_
  have inside := pixelAt_inside sound drawn
  refine Prog.wp_call_bind.mpr ⟨h.load inside, fun _ => ?_⟩
  exact Prog.wp_call_bind.mpr ⟨h.store inside, fun _ => .inr ⟨_, _, inside, rfl⟩⟩

/-- A fill is inside whatever the frame holds. -/
theorem fbFill_wp (h : Ready f fb .write s) :
    (fbFill f c).wp perform PixelsCovered (fun _ _ => True) s := by
  unfold fbFill
  refine Prog.wp_ite (fun _ => trivial) fun _ => ?_
  rw [Prog.wp_bind, wp_loadFrame, h.frame]
  refine Prog.wp_ite (fun _ => trivial) fun _ => ?_
  have kept : ∀ i ∈ List.range fb.need.toNat, ∀ t : State, fb.range f .write ∈ t.accepted →
      (do let _ ← Prog.call (.store (.pixels f) (fb.buf + UInt32.ofNat i)
            (if c ≠ 0 then 0xff else 0))
          pure () : Act Unit).wp perform PixelsCovered
        (fun _ t => fb.range f .write ∈ t.accepted) t := by
    intro i hi t ht
    refine Prog.wp_call_bind.mpr ⟨⟨_, ht, rfl, ?_, fun _ => rfl⟩, fun _ => ht⟩
    show fb.buf + UInt32.ofNat i - fb.buf < fb.need
    rw [UInt32.add_comm, UInt32.add_sub_cancel, UInt32.lt_iff_toNat_lt, UInt32.toNat_ofNat']
    have small := List.mem_range.mp hi
    have bound := fb.need.toNat_lt
    omega
  exact (Prog.wp_forM kept h.accepted).mono fun _ _ _ => trivial

end Accesses

end RPCortex.Abi
