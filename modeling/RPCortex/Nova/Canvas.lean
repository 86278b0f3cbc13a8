import Mathlib

/-! The drawing surface of `novacanvas.cpp`.  Sums are those of 32-bit integers: where one leaves their range the
language says nothing more, and neither does a byte outside the buffer that is touched; then there is no result.  The
picture is told by which bits of the buffer are lit. -/

namespace RPCortex.Nova

/-- `Canvas`: the caller's buffer, page after page of columns with eight pixels each, and the size. -/
structure Canvas where
  buf : Option (List UInt8)
  w : Int
  h : Int

/-- An `int`, when it is one. -/
def int (v : Int) : Option Int := if -2 ^ 31 ≤ v ∧ v < 2 ^ 31 then some v else none

/-- `Canvas::get`. -/
def Canvas.get (c : Canvas) (x y : Int) : Bool :=
  match c.buf with
  | none => false
  | some buf =>
    if x < 0 ∨ y < 0 ∨ c.w ≤ x ∨ c.h ≤ y then false
    else (buf.getD (y / 8 * c.w + x).toNat 0 >>> UInt8.ofNat (y % 8).toNat) &&& 1 = 1

/-- Change a byte of the buffer. -/
def Canvas.poke (c : Canvas) (buf : List UInt8) (i : Int) (f : UInt8 → UInt8) : Option Canvas :=
  if 0 ≤ i ∧ i < buf.length then some { c with buf := some (buf.modify i.toNat f) } else none

/-- The bit of a row in its page. -/
def rowMask (y : Int) : UInt8 := 1 <<< UInt8.ofNat (y % 8).toNat

/-- Light the bits of a mask, or darken them. -/
def draw (lit : Bool) (m p : UInt8) : UInt8 := if lit then p ||| m else p &&& ~~~m

/-- `Canvas::pixel`. -/
def Canvas.pixel (c : Canvas) (x y : Int) (lit : Bool) : Option Canvas :=
  match c.buf with
  | none => some c
  | some buf =>
    if x < 0 ∨ y < 0 ∨ c.w ≤ x ∨ c.h ≤ y then some c
    else (int (y / 8 * c.w + x)).bind fun i => c.poke buf i (draw lit (rowMask y))

/-- A loop over the bytes from `i` on. -/
def Canvas.run (f : UInt8 → UInt8) : (left : Nat) → (i : Int) → Canvas → Option Canvas
  | 0, _, c => some c
  | left + 1, i, c => (c.buf.bind fun buf => c.poke buf i f).bind (Canvas.run f left (i + 1))

/-- A negative length is turned around. -/
def turned (x len : Int) : Option (Int × Int) :=
  if len < 0 then (int (x + len)).bind fun x => (int (-len)).map fun len => (x, len) else some (x, len)

/-- What is in front of the axis is cut off. -/
def cutFront (x len : Int) : Option (Int × Int) :=
  if x < 0 then (int (len + x)).map fun len => (0, len) else some (x, len)

/-- What is behind an axis of `w` pixels is cut off. -/
def cutBack (x len w : Int) : Option Int :=
  (int (x + len)).bind fun stop => if w < stop then int (w - x) else some len

/-- What `hline` and `vline` make of a start and a length, on an axis of `w` pixels. -/
def clip (x len w : Int) : Option (Int × Int) :=
  (turned x len).bind fun p => (cutFront p.1 p.2).bind fun p => (cutBack p.1 p.2 w).map fun len => (p.1, len)

/-- `Canvas::hline`. -/
def Canvas.hline (c : Canvas) (x y len : Int) (lit : Bool) : Option Canvas :=
  if c.buf = none ∨ y < 0 ∨ c.h ≤ y then some c
  else do
    let (x, len) ← clip x len c.w
    if len ≤ 0 then pure c
    else do
      let i ← int (y / 8 * c.w + x)
      Canvas.run (draw lit (rowMask y)) len.toNat i c

/-- The bits of a page from that of row `y` up to `upto`. -/
def pageMask (y upto : Int) : UInt8 :=
  UInt32.toUInt8 ((((1 : UInt32) <<< UInt32.ofNat (upto - y / 8 * 8).toNat) - 1) &&&
    ~~~(((1 : UInt32) <<< UInt32.ofNat (y % 8).toNat) - 1))

/-- The loop of `Canvas::vline`.  Every pass takes a row at least. -/
def Canvas.columns (lit : Bool) (x y1 : Int) : (fuel : Nat) → (y : Int) → Canvas → Option Canvas
  | 0, _, c => some c
  | fuel + 1, y, c =>
    if y1 ≤ y then some c
    else do
      let bottom ← int ((y / 8 + 1) * 8)
      let upto := if y1 < bottom then y1 else bottom
      let i ← int (y / 8 * c.w + x)
      let buf ← c.buf
      let c ← c.poke buf i (draw lit (pageMask y upto))
      Canvas.columns lit x y1 fuel upto c

/-- `Canvas::vline`. -/
def Canvas.vline (c : Canvas) (x y len : Int) (lit : Bool) : Option Canvas :=
  if c.buf = none ∨ x < 0 ∨ c.w ≤ x then some c
  else do
    let (y, len) ← clip y len c.h
    if len ≤ 0 then pure c
    else do
      let y1 ← int (y + len)
      Canvas.columns lit x y1 len.toNat y c

/-- `Canvas::rect`. -/
def Canvas.rect (c : Canvas) (x y w h : Int) (lit : Bool) : Option Canvas :=
  if w ≤ 0 ∨ h ≤ 0 then some c
  else do
    let c ← c.hline x y w lit
    let below ← int (y + h)
    let c ← c.hline x (below - 1) w lit
    let c ← c.vline x y h lit
    let right ← int (x + w)
    c.vline (right - 1) y h lit

/-- The loop of `Canvas::fill_rect`. -/
def Canvas.fillColumns (lit : Bool) (x y h : Int) : (left : Nat) → (i : Int) → Canvas → Option Canvas
  | 0, _, c => some c
  | left + 1, i, c => do
    let px ← int (x + i)
    let c ← c.vline px y h lit
    Canvas.fillColumns lit x y h left (i + 1) c

/-- `Canvas::fill_rect`. -/
def Canvas.fillRect (c : Canvas) (x y w h : Int) (lit : Bool) : Option Canvas :=
  if w ≤ 0 ∨ h ≤ 0 then some c else Canvas.fillColumns lit x y h w.toNat 0 c

/-- The loop of `Canvas::invert_rect`. -/
def Canvas.invertRows (x y w : Int) : (left : Nat) → (j : Int) → Canvas → Option Canvas
  | 0, _, c => some c
  | left + 1, j, c => do
    let row ← int (y + j)
    if c.h ≤ row then pure c
    else do
      let i ← int (row / 8 * c.w + x)
      let c ← Canvas.run (· ^^^ rowMask row) w.toNat i c
      Canvas.invertRows x y w left (j + 1) c

/-- `Canvas::invert_rect`. -/
def Canvas.invertRect (c : Canvas) (x y w h : Int) : Option Canvas :=
  if c.buf = none then some c
  else do
    let p ← cutFront x w
    let q ← cutFront y h
    let w ← cutBack p.1 p.2 c.w
    let h ← cutBack q.1 q.2 c.h
    Canvas.invertRows p.1 q.1 w h.toNat 0 c

/-- The loop of `isqrt`. -/
def isqrtLoop (n : Int) : (fuel : Nat) → (x y : Int) → Option Int
  | 0, x, _ => some x
  | fuel + 1, x, y =>
    if y < x then do
      let sum ← int (y + n / y)
      isqrtLoop n fuel y (sum / 2)
    else some x

/-- `isqrt`. -/
def isqrt (n : Int) : Option Int :=
  if n < 2 then some (if n < 0 then 0 else n)
  else do
    let sum ← int (n + 1)
    isqrtLoop n n.toNat n (sum / 2)

/-- The row of `Canvas::fill_circle` at a distance from the middle. -/
def Canvas.fillSpan (c : Canvas) (cx cy r dy : Int) (lit : Bool) : Option Canvas :=
  (int (r * r)).bind fun square => (int (dy * dy)).bind fun square' => (int (square - square')).bind fun room =>
  (isqrt room).bind fun dx => (int (cx - dx)).bind fun px => (int (cy + dy)).bind fun py =>
  (int (2 * dx)).bind fun double => (int (double + 1)).bind fun len => c.hline px py len lit

/-- The loop of `Canvas::fill_circle`. -/
def Canvas.fillSpans (lit : Bool) (cx cy r : Int) : (left : Nat) → (dy : Int) → Canvas → Option Canvas
  | 0, _, c => some c
  | left + 1, dy, c => (c.fillSpan cx cy r dy lit).bind (Canvas.fillSpans lit cx cy r left (dy + 1))

/-- `Canvas::fill_circle`. -/
def Canvas.fillCircle (c : Canvas) (cx cy r : Int) (lit : Bool) : Option Canvas :=
  if r ≤ 0 then c.pixel cx cy lit
  else do
    let low ← int (-r)
    Canvas.fillSpans lit cx cy r (2 * r + 1).toNat low c

/-! ### The picture -/

/-- A bit of the buffer. -/
def bit (b : UInt8) (j : Nat) : Bool := b.toNat.testBit j

/-- The contract of `attach`: the buffer has room for the panel. -/
structure Canvas.Attached (c : Canvas) : Prop where
  some_ : ∃ buf, c.buf = some buf ∧ c.w * ((c.h + 7) / 8) ≤ buf.length ∧ (buf.length : Int) < 2 ^ 31
  w_nonneg : 0 ≤ c.w
  w_lt : c.w < 2 ^ 31
  h_nonneg : 0 ≤ c.h
  h_lt : c.h + 7 < 2 ^ 31

/-- Bit `j` of byte `k` is a pixel of the panel and in a shape. -/
def Canvas.Covers (c : Canvas) (S : Int → Int → Prop) (k j : Nat) : Prop :=
  0 < c.w ∧ (k : Int) / c.w * 8 + j < c.h ∧ S ((k : Int) % c.w) ((k : Int) / c.w * 8 + j)

/-- `c'` is `c` with `g` done to the pixels of a shape, and to nothing else. -/
structure Canvas.Draws (c c' : Canvas) (S : Int → Int → Prop) (g : Bool → Bool) : Prop where
  w_eq : c'.w = c.w
  h_eq : c'.h = c.h
  bits : ∃ buf buf', c.buf = some buf ∧ c'.buf = some buf' ∧ buf'.length = buf.length ∧
    ∀ k j, j < 8 → (c.Covers S k j → bit (buf'.getD k 0) j = g (bit (buf.getD k 0) j)) ∧
      (¬c.Covers S k j → bit (buf'.getD k 0) j = bit (buf.getD k 0) j)

variable {c c' c'' : Canvas} {S T : Int → Int → Prop} {g : Bool → Bool} {x y len v w : Int} {buf : List UInt8}

theorem int_eq_some (h : -2 ^ 31 ≤ v ∧ v < 2 ^ 31) : int v = some v := if_pos h

theorem eq_of_bit {a b : UInt8} (h : ∀ j < 8, bit a j = bit b j) : a = b := by
  refine UInt8.toNat_inj.mp (Nat.eq_of_testBit_eq fun j => ?_)
  by_cases small : j < 8
  · exact h j small
  · have high : ∀ n : UInt8, n.toNat < 2 ^ j := fun n =>
      Nat.lt_of_lt_of_le n.toNat_lt (Nat.pow_le_pow_right Nat.two_pos (by omega))
    rw [Nat.testBit_lt_two_pow (high a), Nat.testBit_lt_two_pow (high b)]

/-- A shape tells the whole result. -/
theorem Canvas.Draws.unique (first : c.Draws c' S g) (second : c.Draws c'' S g) : c' = c'' := by
  obtain ⟨buf, buf', is, is', size, bits⟩ := first.bits
  obtain ⟨buf₂, buf'', is₂, is'', size', bits'⟩ := second.bits
  obtain rfl := Option.some.inj (is.symm.trans is₂)
  have same : buf' = buf'' := by
    refine List.ext_getElem (size.trans size'.symm) fun k lt lt' => eq_of_bit fun j small => ?_
    have get : ∀ {l : List UInt8} (h : k < l.length), l[k] = l.getD k 0 := fun h => (List.getD_eq_getElem _ _ h).symm
    rw [get lt, get lt']
    by_cases covered : c.Covers S k j
    · rw [(bits k j small).1 covered, (bits' k j small).1 covered]
    · rw [(bits k j small).2 covered, (bits' k j small).2 covered]
  have bufs : c'.buf = c''.buf := by rw [is', is'', same]
  have wide := first.w_eq.trans second.w_eq.symm
  have high := first.h_eq.trans second.h_eq.symm
  cases c'
  cases c''
  simp only [Canvas.mk.injEq]
  exact ⟨bufs, wide, high⟩

theorem Canvas.Draws.attached (draws : c.Draws c' S g) (attached : c.Attached) : c'.Attached := by
  obtain ⟨buf, buf', is, is', size, -⟩ := draws.bits
  obtain ⟨buf₂, is₂, room, small⟩ := attached.some_
  obtain rfl := Option.some.inj (is.symm.trans is₂)
  refine ⟨⟨buf', is', ?_, ?_⟩, ?_, ?_, ?_, ?_⟩
  · rw [draws.w_eq, draws.h_eq, size]
    exact room
  · rw [size]
    exact small
  · exact draws.w_eq ▸ attached.w_nonneg
  · exact draws.w_eq ▸ attached.w_lt
  · exact draws.h_eq ▸ attached.h_nonneg
  · exact draws.h_eq ▸ attached.h_lt

theorem Canvas.draws_none (attached : c.Attached) (none_ : ∀ x y, 0 ≤ x → x < c.w → 0 ≤ y → y < c.h → ¬S x y) :
    c.Draws c S g := by
  obtain ⟨buf, is, -⟩ := attached.some_
  refine ⟨rfl, rfl, buf, buf, is, is, rfl, fun k j _ => ⟨fun covered => absurd covered.2.2 ?_, fun _ => rfl⟩⟩
  have wide := covered.1
  exact none_ _ _ (Int.emod_nonneg _ (by omega)) (Int.emod_lt_of_pos _ wide)
    (by have := Int.ediv_nonneg (Int.natCast_nonneg k) (Int.le_of_lt wide); omega) covered.2.1

theorem Canvas.Draws.congr (draws : c.Draws c' S g)
    (same : ∀ x y, 0 ≤ x → x < c.w → 0 ≤ y → y < c.h → (S x y ↔ T x y)) : c.Draws c' T g := by
  obtain ⟨buf, buf', is, is', size, bits⟩ := draws.bits
  refine ⟨draws.w_eq, draws.h_eq, buf, buf', is, is', size, fun k j small => ?_⟩
  have covers : c.Covers S k j ↔ c.Covers T k j := by
    refine and_congr_right fun wide => and_congr_right fun high => ?_
    exact same _ _ (Int.emod_nonneg _ (by omega)) (Int.emod_lt_of_pos _ wide)
      (by have := Int.ediv_nonneg (Int.natCast_nonneg k) (Int.le_of_lt wide); omega) high
  rw [← covers]
  exact bits k j small

/-- One shape after another, when doing it twice is doing it once or the shapes have no pixel in common. -/
theorem Canvas.Draws.trans (first : c.Draws c' S g) (second : c'.Draws c'' T g)
    (apart : (∀ b, g (g b) = g b) ∨ ∀ x y, S x y → ¬T x y) : c.Draws c'' (fun x y => S x y ∨ T x y) g := by
  obtain ⟨buf, buf', is, is', size, bits⟩ := first.bits
  obtain ⟨buf₂, buf'', is₂, is'', size', bits'⟩ := second.bits
  obtain rfl := Option.some.inj (is'.symm.trans is₂)
  refine ⟨second.w_eq.trans first.w_eq, second.h_eq.trans first.h_eq, buf, buf'', is, is'', size'.trans size,
    fun k j small => ?_⟩
  have covers : c'.Covers T k j ↔ c.Covers T k j := by rw [Canvas.Covers, Canvas.Covers, first.w_eq, first.h_eq]
  have both : c.Covers (fun x y => S x y ∨ T x y) k j ↔ c.Covers S k j ∨ c.Covers T k j := by
    simp only [Canvas.Covers]
    tauto
  obtain ⟨on, off⟩ := bits k j small
  obtain ⟨on', off'⟩ := bits' k j small
  rw [covers] at on' off'
  rw [both]
  by_cases inS : c.Covers S k j
  · by_cases inT : c.Covers T k j
    · refine ⟨fun _ => ?_, fun no => absurd (.inl inS) no⟩
      rw [on' inT, on inS]
      rcases apart with same | apart
      · exact same _
      · exact absurd inT.2.2 (apart _ _ inS.2.2)
    · exact ⟨fun _ => by rw [off' inT, on inS], fun no => absurd (.inl inS) no⟩
  · by_cases inT : c.Covers T k j
    · exact ⟨fun _ => by rw [on' inT, off inS], fun no => absurd (.inr inT) no⟩
    · exact ⟨fun some_ => absurd some_ (not_or.mpr ⟨inS, inT⟩), fun _ => by rw [off' inT, off inS]⟩

/-! ### Bytes of the buffer -/

/-- A mask's effect on a byte. -/
def Masks (f : UInt8 → UInt8) (M : Nat → Prop) (g : Bool → Bool) : Prop :=
  ∀ b, ∀ j < 8, (M j → bit (f b) j = g (bit b j)) ∧ (¬M j → bit (f b) j = bit b j)

theorem bit_or {a b : UInt8} {j : Nat} : bit (a ||| b) j = (bit a j || bit b j) := by
  rw [bit, UInt8.toNat_or, Nat.testBit_or]
  rfl

theorem bit_xor {a b : UInt8} {j : Nat} : bit (a ^^^ b) j = (bit a j ^^ bit b j) := by
  rw [bit, UInt8.toNat_xor, Nat.testBit_xor]
  rfl

theorem bit_and_not {a b : UInt8} {j : Nat} : bit (a &&& ~~~b) j = (bit a j && !bit b j) := by
  have same : (a &&& ~~~b).toBitVec.getLsbD j = (a.toBitVec.getLsbD j && !b.toBitVec.getLsbD j) := by
    rw [UInt8.toBitVec_and, UInt8.toBitVec_not, BitVec.getLsbD_and, BitVec.getLsbD_not]
    by_cases small : j < 8
    · simp [small]
    · have none_ : a.toBitVec.getLsbD j = false := BitVec.getLsbD_of_ge _ _ (by omega)
      simp [none_]
  exact same

theorem masks_draw {m : UInt8} {lit : Bool} : Masks (draw lit m) (fun j => bit m j = true) fun _ => lit := by
  intro b j _
  cases lit with
  | true =>
    refine ⟨fun on => ?_, fun off => ?_⟩
    · rw [draw, if_pos rfl, bit_or, on, Bool.or_true]
    · rw [draw, if_pos rfl, bit_or, Bool.eq_false_iff.mpr off, Bool.or_false]
  | false =>
    refine ⟨fun on => ?_, fun off => ?_⟩
    · rw [draw, if_neg Bool.false_ne_true, bit_and_not, on, Bool.not_true, Bool.and_false]
    · rw [draw, if_neg Bool.false_ne_true, bit_and_not, Bool.eq_false_iff.mpr off, Bool.not_false, Bool.and_true]

theorem masks_xor {m : UInt8} : Masks (· ^^^ m) (fun j => bit m j = true) not := by
  intro b j _
  refine ⟨fun on => ?_, fun off => ?_⟩
  · rw [bit_xor, on, Bool.xor_true]
  · rw [bit_xor, Bool.eq_false_iff.mpr off, Bool.xor_false]

theorem Masks.congr {f : UInt8 → UInt8} {M N : Nat → Prop} (masks : Masks f M g) (same : ∀ j < 8, M j ↔ N j) :
    Masks f N g := fun b j small => by
  rw [← same j small]
  exact masks b j small

theorem poke_draws (attached : c.Attached) {f : UInt8 → UInt8} {M : Nat → Prop} (masks : Masks f M g)
    (column : 0 ≤ x ∧ x < c.w) (row : 0 ≤ y ∧ y < c.h) (inside : ∀ j < 8, M j → y / 8 * 8 + (j : Int) < c.h) :
    ∃ buf c', c.buf = some buf ∧ int (y / 8 * c.w + x) = some (y / 8 * c.w + x) ∧
      c.poke buf (y / 8 * c.w + x) f = some c' ∧
      c.Draws c' (fun px py => px = x ∧ py / 8 = y / 8 ∧ M (py % 8).toNat) g := by
  obtain ⟨buf, is, room, small⟩ := attached.some_
  have wide : 0 < c.w := by omega
  have page : y / 8 + 1 ≤ (c.h + 7) / 8 := by omega
  have high : (y / 8 + 1) * c.w ≤ c.w * ((c.h + 7) / 8) := by
    rw [Int.mul_comm c.w]
    exact Int.mul_le_mul_of_nonneg_right page attached.w_nonneg
  have low : 0 ≤ y / 8 * c.w := Int.mul_nonneg (by omega) attached.w_nonneg
  rw [Int.add_mul, Int.one_mul] at high
  have place : 0 ≤ y / 8 * c.w + x ∧ y / 8 * c.w + x < buf.length := ⟨by omega, by omega⟩
  refine ⟨buf, _, is, int_eq_some ⟨by omega, by omega⟩, if_pos place, rfl, rfl, buf, _, is, rfl,
    List.length_modify .., fun k j lt => ?_⟩
  have covers : c.Covers (fun px py => px = x ∧ py / 8 = y / 8 ∧ M (py % 8).toNat) k j ↔
      k = (y / 8 * c.w + x).toNat ∧ M j := by
    have bits : ((k : Int) / c.w * 8 + j) / 8 = k / c.w ∧ (((k : Int) / c.w * 8 + j) % 8).toNat = j := by omega
    rw [Canvas.Covers, bits.1, bits.2]
    constructor
    · rintro ⟨-, -, rfl, same, inM⟩
      refine ⟨?_, inM⟩
      rw [← same, Int.mul_comm, Int.mul_ediv_add_emod]
      rfl
    · rintro ⟨rfl, inM⟩
      have cast : (((y / 8 * c.w + x).toNat : Nat) : Int) = y / 8 * c.w + x := Int.toNat_of_nonneg place.1
      have quotient : (y / 8 * c.w + x) / c.w = y / 8 := by
        rw [Int.add_comm, Int.add_mul_ediv_right _ _ (by omega), Int.ediv_eq_zero_of_lt column.1 column.2, Int.zero_add]
      have rest : (y / 8 * c.w + x) % c.w = x := by
        rw [Int.add_comm, Int.add_mul_emod_self_right, Int.emod_eq_of_lt column.1 column.2]
      rw [cast, quotient, rest]
      exact ⟨wide, inside j lt inM, rfl, rfl, inM⟩
  rw [covers]
  by_cases here : (y / 8 * c.w + x).toNat = k
  · have inBuf : k < buf.length := by omega
    have get : (buf.modify (y / 8 * c.w + x).toNat f).getD k 0 = f (buf.getD k 0) := by
      rw [here, List.getD_eq_getElem?_getD, List.getElem?_modify_eq, List.getElem?_eq_getElem inBuf,
        List.getD_eq_getElem _ _ inBuf]
      rfl
    rw [get, and_iff_right here.symm]
    exact masks _ j lt
  · have get : (buf.modify (y / 8 * c.w + x).toNat f).getD k 0 = buf.getD k 0 := by
      rw [List.getD_eq_getElem?_getD, List.getElem?_modify_ne _ _ here, ← List.getD_eq_getElem?_getD]
    rw [get]
    exact ⟨fun no => absurd no.1.symm here, fun _ => rfl⟩

/-! ### Runs -/

theorem bit_rowMask {j : Nat} (small : j < 8) : bit (rowMask y) j = true ↔ j = (y % 8).toNat := by
  have all : ∀ a b : Fin 8, bit (1 <<< UInt8.ofNat a) b = true ↔ b.val = a.val := by decide
  exact all ⟨(y % 8).toNat, by omega⟩ ⟨j, small⟩

set_option maxRecDepth 4000 in
theorem bit_pageMask {y upto : Int} {j : Nat} (small : j < 8) (page : upto - y / 8 * 8 ≤ 8) :
    bit (pageMask y upto) j = true ↔ (y % 8).toNat ≤ j ∧ j < (upto - y / 8 * 8).toNat := by
  have all : ∀ (a : Fin 9) (b k : Fin 8), bit (UInt32.toUInt8 ((((1 : UInt32) <<< UInt32.ofNat a) - 1) &&&
      ~~~(((1 : UInt32) <<< UInt32.ofNat b) - 1))) k = true ↔ b.val ≤ k.val ∧ k.val < a.val := by decide
  exact all ⟨(upto - y / 8 * 8).toNat, by omega⟩ ⟨(y % 8).toNat, by omega⟩ ⟨j, small⟩

theorem run_draws (attached : c.Attached) {f : UInt8 → UInt8} {M : Nat → Prop} (masks : Masks f M g) {left : Nat}
    (columns : 0 ≤ x ∧ x + left ≤ c.w) (row : 0 ≤ y ∧ y < c.h) (inside : ∀ j < 8, M j → y / 8 * 8 + (j : Int) < c.h) :
    ∃ c', Canvas.run f left (y / 8 * c.w + x) c = some c' ∧
      c.Draws c' (fun px py => (x ≤ px ∧ px < x + left) ∧ py / 8 = y / 8 ∧ M (py % 8).toNat) g := by
  induction left generalizing c x with
  | zero => exact ⟨c, rfl, Canvas.draws_none attached fun px py _ _ _ _ no => by omega⟩
  | succ left ih =>
    obtain ⟨buf, c₁, is, -, poked, draws⟩ :=
      poke_draws attached masks (⟨columns.1, by omega⟩ : 0 ≤ x ∧ x < c.w) row inside
    have next : y / 8 * c₁.w + (x + 1) = y / 8 * c.w + x + 1 := by
      rw [draws.w_eq]
      omega
    obtain ⟨c₂, ran, rest⟩ := @ih c₁ (x + 1) (draws.attached attached) (by rw [draws.w_eq]; omega)
      (by rw [draws.h_eq]; exact row) (by rw [draws.h_eq]; exact inside)
    rw [next] at ran
    refine ⟨c₂, ?_, (draws.trans rest (.inr fun px py first second => by omega)).congr fun px py _ _ _ _ => ?_⟩
    · rw [Canvas.run, is, Option.bind_some, poked, Option.bind_some, ran]
    · constructor
      · rintro (⟨rfl, same⟩ | ⟨span, same⟩)
        · exact ⟨by omega, same⟩
        · exact ⟨by omega, same⟩
      · rintro ⟨span, same⟩
        by_cases first : px = x
        · exact .inl ⟨first, same⟩
        · exact .inr ⟨by omega, same⟩

theorem columns_draws (attached : c.Attached) {lit : Bool} {y1 : Int} {fuel : Nat} (column : 0 ≤ x ∧ x < c.w)
    (low : 0 ≤ y) (high : y1 ≤ c.h) (enough : y1 - y ≤ fuel) :
    ∃ c', Canvas.columns lit x y1 fuel y c = some c' ∧
      c.Draws c' (fun px py => px = x ∧ y ≤ py ∧ py < y1) fun _ => lit := by
  induction fuel generalizing c y with
  | zero => exact ⟨c, rfl, Canvas.draws_none attached fun px py _ _ _ _ no => by omega⟩
  | succ fuel ih =>
    rw [Canvas.columns]
    by_cases over_ : y1 ≤ y
    · rw [if_pos over_]
      exact ⟨c, rfl, Canvas.draws_none attached fun px py _ _ _ _ no => by omega⟩
    rw [if_neg over_]
    have short := attached.h_lt
    have bottom : int ((y / 8 + 1) * 8) = some ((y / 8 + 1) * 8) := int_eq_some ⟨by omega, by omega⟩
    generalize goes : (if y1 < (y / 8 + 1) * 8 then y1 else (y / 8 + 1) * 8) = upto
    have range : y < upto ∧ upto ≤ y1 ∧ upto ≤ (y / 8 + 1) * 8 ∧ (upto = y1 ∨ upto = (y / 8 + 1) * 8) := by
      split at goes
      · omega
      · omega
    have masks : Masks (draw lit (pageMask y upto)) (fun j => (y % 8).toNat ≤ j ∧ j < (upto - y / 8 * 8).toNat)
        fun _ => lit := masks_draw.congr fun j small => bit_pageMask small (by omega)
    obtain ⟨buf, c₁, is, fits, poked, draws⟩ :=
      poke_draws attached masks column (⟨low, by omega⟩ : 0 ≤ y ∧ y < c.h) fun j _ inM => by omega
    obtain ⟨c₂, ran, rest⟩ := @ih c₁ upto (draws.attached attached) (by rw [draws.w_eq]; exact column) (by omega)
      (by rw [draws.h_eq]; exact high) (by omega)
    refine ⟨c₂, ?_, (draws.trans rest (.inl fun _ => rfl)).congr fun px py _ _ _ _ => ?_⟩
    · simp only [bottom, Option.bind_eq_bind, Option.bind_some, goes, fits, is, poked, ran]
    · constructor
      · rintro (⟨rfl, same, bits⟩ | ⟨rfl, span⟩)
        · exact ⟨rfl, by omega⟩
        · exact ⟨rfl, by omega⟩
      · rintro ⟨rfl, span⟩
        by_cases inPage : py < upto
        · exact .inl ⟨rfl, by omega⟩
        · exact .inr ⟨rfl, by omega⟩

/-! ### Spans -/

/-- An `int`. -/
def InInt (v : Int) : Prop := -2 ^ 31 ≤ v ∧ v < 2 ^ 31

instance (v : Int) : Decidable (InInt v) := inferInstanceAs (Decidable (_ ∧ _))

/-- The places from `x` on for a length, to the left when it is negative. -/
def Span (x len p : Int) : Prop := if len < 0 then x + len ≤ p ∧ p < x else x ≤ p ∧ p < x + len

instance (x len p : Int) : Decidable (Span x len p) :=
  inferInstanceAs (Decidable (if len < 0 then x + len ≤ p ∧ p < x else x ≤ p ∧ p < x + len))

/-- The end of a span is an `int`, and so is its length when it is turned around. -/
def SpanFits (x len : Int) : Prop := if len < 0 then -2 ^ 31 ≤ x + len ∧ -2 ^ 31 < len else x + len < 2 ^ 31

theorem int_eq_none (h : ¬InInt v) : int v = none := if_neg h

theorem cutFront_fits (fits : x < 0 → InInt (len + x)) :
    cutFront x len = some (max x 0, if x < 0 then len + x else len) := by
  unfold cutFront
  by_cases left : x < 0
  · rw [if_pos left, if_pos left, int_eq_some (fits left), max_eq_right (Int.le_of_lt left)]
    rfl
  · rw [if_neg left, if_neg left, max_eq_left (by omega)]

theorem cutBack_fits (isX : 0 ≤ x ∧ x < 2 ^ 31) (size : 0 ≤ w ∧ w < 2 ^ 31) (fits : InInt (x + len)) :
    cutBack x len w = some (min len (w - x)) := by
  unfold cutBack
  rw [int_eq_some fits, Option.bind_some]
  by_cases far : w < x + len
  · rw [if_pos far, int_eq_some ⟨by omega, by omega⟩, min_eq_right (by omega)]
  · rw [if_neg far, min_eq_left (by omega)]

theorem clip_fits (isX : InInt x) (isLen : InInt len) (size : 0 ≤ w ∧ w < 2 ^ 31) (fits : SpanFits x len) :
    ∃ a n, clip x len w = some (a, n) ∧ 0 ≤ a ∧ (0 < n → a + n ≤ w) ∧
      ∀ p, 0 ≤ p → p < w → (Span x len p ↔ a ≤ p ∧ p < a + n) := by
  have close : ∀ a n : Int, InInt a → InInt n → 0 ≤ n → a + n < 2 ^ 31 →
      (∀ p, Span x len p ↔ a ≤ p ∧ p < a + n) → turned x len = some (a, n) →
      ∃ a' n', clip x len w = some (a', n') ∧ 0 ≤ a' ∧ (0 < n' → a' + n' ≤ w) ∧
          ∀ p, 0 ≤ p → p < w → (Span x len p ↔ a' ≤ p ∧ p < a' + n') := by
    intro a n isA isN positive room same turns
    unfold InInt at isA isN
    have front := @cutFront_fits a n fun left => ⟨by omega, by omega⟩
    have back : cutBack (max a 0) (if a < 0 then n + a else n) w =
        some (min (if a < 0 then n + a else n) (w - max a 0)) := by
      refine cutBack_fits ⟨by omega, by omega⟩ size ?_
      unfold InInt
      split
      · omega
      · omega
    refine ⟨max a 0, min (if a < 0 then n + a else n) (w - max a 0), ?_, by omega, fun _ => by omega,
      fun p low high => ?_⟩
    · rw [clip, turns, Option.bind_some, front, Option.bind_some, back]
      rfl
    · rw [same p]
      split
      · omega
      · omega
  unfold Span SpanFits InInt at *
  by_cases neg : len < 0
  · rw [if_pos neg] at fits
    refine close (x + len) (-len) ⟨by omega, by omega⟩ ⟨by omega, by omega⟩ (by omega) (by omega) (fun p => ?_) ?_
    · rw [if_pos neg]
      omega
    · rw [turned, if_pos neg, int_eq_some ⟨by omega, by omega⟩, Option.bind_some, int_eq_some ⟨by omega, by omega⟩]
      rfl
  · rw [if_neg neg] at fits
    refine close x len isX isLen (by omega) fits (fun p => ?_) ?_
    · rw [if_neg neg]
    · rw [turned, if_neg neg]

theorem clip_none (isX : InInt x) (isLen : InInt len) (no : ¬SpanFits x len) : clip x len w = none := by
  unfold clip turned
  unfold SpanFits InInt at *
  by_cases neg : len < 0
  · rw [if_pos neg] at no ⊢
    by_cases first : InInt (x + len)
    · have second : int (-len) = none := int_eq_none fun fits => no ⟨first.1, by have := fits.2; omega⟩
      rw [int_eq_some first, Option.bind_some, second]
      rfl
    · rw [int_eq_none first]
      rfl
  · rw [if_neg neg] at no ⊢
    have right : ¬x < 0 := fun left => no (by omega)
    have stop : int (x + len) = none := int_eq_none fun fits => no fits.2
    rw [Option.bind_some, cutFront, if_neg right, Option.bind_some, cutBack, stop]
    rfl

/-- The points of a horizontal line. -/
def OnRow (x y len px py : Int) : Prop := py = y ∧ Span x len px

/-- The points of a vertical line. -/
def OnColumn (x y len px py : Int) : Prop := px = x ∧ Span y len py

instance (x y len px py : Int) : Decidable (OnRow x y len px py) := inferInstanceAs (Decidable (_ ∧ _))

instance (x y len px py : Int) : Decidable (OnColumn x y len px py) := inferInstanceAs (Decidable (_ ∧ _))

variable {lit : Bool}

theorem hline_draws (attached : c.Attached) (isX : InInt x) (isLen : InInt len)
    (fits : y < 0 ∨ c.h ≤ y ∨ SpanFits x len) :
    ∃ c', c.hline x y len lit = some c' ∧ c.Draws c' (OnRow x y len) fun _ => lit := by
  obtain ⟨buf, is, -⟩ := attached.some_
  unfold Canvas.hline
  by_cases out : y < 0 ∨ c.h ≤ y
  · rw [if_pos (.inr out)]
    exact ⟨c, rfl, Canvas.draws_none attached fun px py _ _ _ _ on => by have := on.1; omega⟩
  rw [if_neg (not_or.mpr ⟨by rw [is]; exact Option.some_ne_none _, out⟩)]
  have row : 0 ≤ y ∧ y < c.h := by omega
  obtain ⟨a, n, clipped, low, high, same⟩ := clip_fits isX isLen ⟨attached.w_nonneg, attached.w_lt⟩
    (fits.resolve_left (by omega) |>.resolve_left (by omega))
  simp only [clipped, Option.bind_eq_bind, Option.bind_some, Option.pure_def]
  by_cases empty : n ≤ 0
  · rw [if_pos empty]
    refine ⟨c, rfl, Canvas.draws_none attached fun px py first last _ _ on => ?_⟩
    have := (same px first last).mp on.2
    omega
  rw [if_neg empty]
  have masks : Masks (draw lit (rowMask y)) (fun j => j = (y % 8).toNat) fun _ => lit :=
    masks_draw.congr fun j small => bit_rowMask small
  have inside : ∀ j < 8, j = (y % 8).toNat → y / 8 * 8 + (j : Int) < c.h := fun j _ same => by omega
  have columns : 0 ≤ a ∧ a + n.toNat ≤ c.w := ⟨low, by have := high (by omega); omega⟩
  obtain ⟨-, -, -, index, -, -⟩ := poke_draws attached masks ⟨low, by omega⟩ row inside
  obtain ⟨c', ran, draws⟩ := run_draws attached masks columns row inside
  refine ⟨c', ?_, draws.congr fun px py first last _ _ => ?_⟩
  · rw [index, Option.bind_some, ran]
  · rw [OnRow, same px first last]
    omega

theorem hline_none (attached : c.Attached) (isX : InInt x) (isLen : InInt len)
    (no : ¬(y < 0 ∨ c.h ≤ y ∨ SpanFits x len)) : c.hline x y len lit = none := by
  obtain ⟨buf, is, -⟩ := attached.some_
  obtain ⟨above, no⟩ := not_or.mp no
  obtain ⟨below, far⟩ := not_or.mp no
  unfold Canvas.hline
  rw [if_neg (not_or.mpr ⟨by rw [is]; exact Option.some_ne_none _, not_or.mpr ⟨above, below⟩⟩),
    clip_none isX isLen far]
  rfl

theorem vline_draws (attached : c.Attached) (isY : InInt y) (isLen : InInt len)
    (fits : x < 0 ∨ c.w ≤ x ∨ SpanFits y len) :
    ∃ c', c.vline x y len lit = some c' ∧ c.Draws c' (OnColumn x y len) fun _ => lit := by
  obtain ⟨buf, is, -⟩ := attached.some_
  unfold Canvas.vline
  by_cases out : x < 0 ∨ c.w ≤ x
  · rw [if_pos (.inr out)]
    exact ⟨c, rfl, Canvas.draws_none attached fun px py _ _ _ _ on => by have := on.1; omega⟩
  rw [if_neg (not_or.mpr ⟨by rw [is]; exact Option.some_ne_none _, out⟩)]
  have short := attached.h_lt
  obtain ⟨a, n, clipped, low, high, same⟩ := clip_fits isY isLen ⟨attached.h_nonneg, by omega⟩
    (fits.resolve_left (by omega) |>.resolve_left (by omega))
  simp only [clipped, Option.bind_eq_bind, Option.bind_some, Option.pure_def]
  by_cases empty : n ≤ 0
  · rw [if_pos empty]
    refine ⟨c, rfl, Canvas.draws_none attached fun px py _ _ first last on => ?_⟩
    have := (same py first last).mp on.2
    omega
  rw [if_neg empty]
  have bound := high (by omega)
  have stop : int (a + n) = some (a + n) := int_eq_some ⟨by omega, by omega⟩
  obtain ⟨c', ran, draws⟩ := @columns_draws c x a attached lit (a + n) n.toNat ⟨by omega, by omega⟩ low bound (by omega)
  refine ⟨c', ?_, draws.congr fun px py _ _ first last => ?_⟩
  · rw [stop, Option.bind_some, ran]
  · rw [OnColumn, same py first last]

theorem vline_none (attached : c.Attached) (isY : InInt y) (isLen : InInt len)
    (no : ¬(x < 0 ∨ c.w ≤ x ∨ SpanFits y len)) : c.vline x y len lit = none := by
  obtain ⟨buf, is, -⟩ := attached.some_
  obtain ⟨left, no⟩ := not_or.mp no
  obtain ⟨right, far⟩ := not_or.mp no
  unfold Canvas.vline
  rw [if_neg (not_or.mpr ⟨by rw [is]; exact Option.some_ne_none _, not_or.mpr ⟨left, right⟩⟩),
    clip_none isY isLen far]
  rfl

/-! ### Boxes -/

/-- The points of a box. -/
def InBox (x y w h px py : Int) : Prop := (x ≤ px ∧ px < x + w) ∧ y ≤ py ∧ py < y + h

/-- The points of the outline of a box. -/
def OnEdge (x y w h px py : Int) : Prop :=
  InBox x y w h px py ∧ (px = x ∨ px = x + w - 1 ∨ py = y ∨ py = y + h - 1)

instance (x y w h px py : Int) : Decidable (InBox x y w h px py) := inferInstanceAs (Decidable (_ ∧ _))

instance (x y w h px py : Int) : Decidable (OnEdge x y w h px py) := inferInstanceAs (Decidable (_ ∧ _))

variable {h : Int}

theorem spanFits_positive (positive : 0 < len) : SpanFits x len ↔ x + len < 2 ^ 31 := by
  rw [SpanFits, if_neg (by omega)]

theorem span_positive {p : Int} (positive : 0 < len) : Span x len p ↔ x ≤ p ∧ p < x + len := by
  rw [Span, if_neg (by omega)]

/-- An outline is drawn exactly when the box ends in 32 bits. -/
theorem rect_draws (attached : c.Attached) (isX : InInt x) (isY : InInt y) (isW : InInt w) (isH : InInt h)
    (fits : w ≤ 0 ∨ h ≤ 0 ∨ x + w < 2 ^ 31 ∧ y + h < 2 ^ 31) :
    ∃ c', c.rect x y w h lit = some c' ∧ c.Draws c' (OnEdge x y w h) fun _ => lit := by
  unfold Canvas.rect
  by_cases empty : w ≤ 0 ∨ h ≤ 0
  · rw [if_pos empty]
    exact ⟨c, rfl, Canvas.draws_none attached fun px py _ _ _ _ on => by have := on.1; unfold InBox at this; omega⟩
  rw [if_neg empty]
  obtain ⟨wide, high⟩ : 0 < w ∧ 0 < h := by omega
  obtain ⟨right, below⟩ : x + w < 2 ^ 31 ∧ y + h < 2 ^ 31 := by omega
  unfold InInt at isX isY
  have spanX := (spanFits_positive wide).mpr right
  have spanY := (spanFits_positive high).mpr below
  obtain ⟨c₁, top, draws₁⟩ := @hline_draws c x y w lit attached isX isW (.inr (.inr spanX))
  have attached₁ := draws₁.attached attached
  obtain ⟨c₂, bottom, draws₂⟩ := @hline_draws c₁ x (y + h - 1) w lit attached₁ isX isW (.inr (.inr spanX))
  have attached₂ := draws₂.attached attached₁
  obtain ⟨c₃, front, draws₃⟩ := @vline_draws c₂ x y h lit attached₂ isY isH (.inr (.inr spanY))
  have attached₃ := draws₃.attached attached₂
  obtain ⟨c₄, back, draws₄⟩ := @vline_draws c₃ (x + w - 1) y h lit attached₃ isY isH (.inr (.inr spanY))
  refine ⟨c₄, ?_, (((draws₁.trans draws₂ (.inl fun _ => rfl)).trans draws₃ (.inl fun _ => rfl)).trans draws₄ (.inl fun _ => rfl)).congr
    fun px py _ _ _ _ => ?_⟩
  · have isBelow : int (y + h) = some (y + h) := int_eq_some ⟨by omega, below⟩
    have isRight : int (x + w) = some (x + w) := int_eq_some ⟨by omega, right⟩
    simp only [top, bottom, front, back, isBelow, isRight, Option.bind_eq_bind, Option.bind_some]
  · rw [OnRow, OnRow, OnColumn, OnColumn, span_positive wide, span_positive high, OnEdge, InBox]
    omega

theorem rect_none (no : ¬(w ≤ 0 ∨ h ≤ 0 ∨ x + w < 2 ^ 31 ∧ y + h < 2 ^ 31)) : c.rect x y w h lit = none := by
  obtain ⟨wide, no⟩ := not_or.mp no
  obtain ⟨high, far⟩ := not_or.mp no
  unfold Canvas.rect
  rw [if_neg (not_or.mpr ⟨wide, high⟩)]
  cases top : c.hline x y w lit with
  | none => rfl
  | some c₁ =>
    by_cases below : InInt (y + h)
    · have right : int (x + w) = none := int_eq_none fun fits => far ⟨fits.2, below.2⟩
      simp only [int_eq_some below, right, Option.bind_eq_bind, Option.bind_none, Option.bind_fun_none]
    · simp only [int_eq_none below, Option.bind_eq_bind, Option.bind_some, Option.bind_none]

theorem fillColumns_draws (attached : c.Attached) (isX : InInt x) (isY : InInt y) (isH : InInt h) (high : 0 < h)
    {left : Nat} {i : Int} (first : 0 ≤ i) (right : left = 0 ∨ x + (i + left) ≤ 2 ^ 31)
    (below : (∃ px, x + i ≤ px ∧ px < x + (i + left) ∧ 0 ≤ px ∧ px < c.w) → y + h < 2 ^ 31) :
    ∃ c', Canvas.fillColumns lit x y h left i c = some c' ∧ c.Draws c' (InBox (x + i) y left h) fun _ => lit := by
  induction left generalizing c i with
  | zero =>
    exact ⟨c, rfl, Canvas.draws_none attached fun px py _ _ _ _ on => by unfold InBox at on; omega⟩
  | succ left ih =>
    unfold InInt at isX
    have column : int (x + i) = some (x + i) := int_eq_some ⟨by omega, by omega⟩
    have spans : x + i < 0 ∨ c.w ≤ x + i ∨ SpanFits y h := by
      by_cases out : x + i < 0 ∨ c.w ≤ x + i
      · exact out.imp_right .inl
      · refine .inr (.inr ((spanFits_positive high).mpr (below ⟨x + i, by omega⟩)))
    obtain ⟨c₁, one, draws⟩ := @vline_draws c (x + i) y h lit attached isY isH spans
    obtain ⟨c₂, more, rest⟩ := @ih c₁ (draws.attached attached) (i + 1) (by omega) (by omega) fun ⟨px, inside⟩ =>
      below ⟨px, by rw [draws.w_eq] at inside; omega⟩
    refine ⟨c₂, ?_, (draws.trans rest (.inl fun _ => rfl)).congr fun px py _ _ _ _ => ?_⟩
    · rw [Canvas.fillColumns]
      simp only [column, one, more, Option.bind_eq_bind, Option.bind_some]
    · rw [OnColumn, span_positive high, InBox, InBox]
      omega

/-- The box ends in 32 bits, below only where a column of it is on the panel. -/
def BoxFits (c : Canvas) (x y w h : Int) : Prop :=
  w ≤ 0 ∨ h ≤ 0 ∨ x + w ≤ 2 ^ 31 ∧ (x < c.w ∧ 0 < x + w ∧ 0 < c.w → y + h < 2 ^ 31)

theorem fillRect_draws (attached : c.Attached) (isX : InInt x) (isY : InInt y) (isH : InInt h)
    (fits : BoxFits c x y w h) : ∃ c', c.fillRect x y w h lit = some c' ∧ c.Draws c' (InBox x y w h) fun _ => lit := by
  unfold Canvas.fillRect
  by_cases empty : w ≤ 0 ∨ h ≤ 0
  · rw [if_pos empty]
    exact ⟨c, rfl, Canvas.draws_none attached fun px py _ _ _ _ on => by unfold InBox at on; omega⟩
  rw [if_neg empty]
  obtain ⟨right, below⟩ := (fits.resolve_left (not_or.mp empty).1).resolve_left (not_or.mp empty).2
  obtain ⟨c', filled, draws⟩ := @fillColumns_draws c x y lit h attached isX isY isH (by omega) w.toNat 0
    (Int.le_refl 0) (by omega) fun ⟨px, inside⟩ => below (by omega)
  have size : (w.toNat : Int) = w := by omega
  rw [size, Int.add_zero] at draws
  exact ⟨c', filled, draws⟩

theorem fillColumns_none (attached : c.Attached) (isY : InInt y) (isH : InInt h) (high : 0 < h)
    {left : Nat} {i : Int} (first : 0 ≤ i)
    (no : ¬((left = 0 ∨ x + (i + left) ≤ 2 ^ 31) ∧
      ((∃ px, x + i ≤ px ∧ px < x + (i + left) ∧ 0 ≤ px ∧ px < c.w) → y + h < 2 ^ 31))) :
    Canvas.fillColumns lit x y h left i c = none := by
  induction left generalizing c i with
  | zero => exact absurd ⟨.inl rfl, fun ⟨px, inside⟩ => by omega⟩ no
  | succ left ih =>
    rw [Canvas.fillColumns]
    by_cases column : InInt (x + i)
    · rw [int_eq_some column]
      by_cases spans : x + i < 0 ∨ c.w ≤ x + i ∨ SpanFits y h
      · obtain ⟨c₁, one, draws⟩ := @vline_draws c (x + i) y h lit attached isY isH spans
        have more := @ih c₁ (draws.attached attached) (i + 1) (by omega) fun both => no ⟨?_, fun ⟨px, inside⟩ => ?_⟩
        · simp only [one, more, Option.bind_eq_bind, Option.bind_some]
        · unfold InInt at column
          omega
        · by_cases here : px = x + i
          · rcases spans with out | out | span
            · omega
            · omega
            · exact (spanFits_positive high).mp span
          · exact both.2 ⟨px, by rw [draws.w_eq]; omega⟩
      · have one := @vline_none c (x + i) y h lit attached isY isH spans
        simp only [one, Option.bind_eq_bind, Option.bind_some, Option.bind_none]
    · rw [int_eq_none column]
      rfl

theorem fillRect_none (attached : c.Attached) (isY : InInt y) (isH : InInt h)
    (no : ¬BoxFits c x y w h) : c.fillRect x y w h lit = none := by
  unfold BoxFits at no
  obtain ⟨wide, high, far⟩ : ¬w ≤ 0 ∧ ¬h ≤ 0 ∧
      ¬(x + w ≤ 2 ^ 31 ∧ (x < c.w ∧ 0 < x + w ∧ 0 < c.w → y + h < 2 ^ 31)) := by tauto
  unfold Canvas.fillRect
  rw [if_neg (not_or.mpr ⟨wide, high⟩)]
  refine fillColumns_none attached isY isH (by omega) (Int.le_refl 0) fun both => far ⟨by omega, fun crosses => ?_⟩
  exact both.2 ⟨max x 0, by omega⟩

/-! ### Turning a box over -/

theorem invertRows_draws (attached : c.Attached) (columns : 0 ≤ x ∧ x + w ≤ max c.w x) (wide : 0 < w → x + w ≤ c.w)
    {left : Nat} {j : Int} (first : 0 ≤ y + j) (last : left = 0 ∨ y + (j + left) ≤ c.h)
    (fits : ∀ row, y + j ≤ row → row < y + (j + left) → row / 8 * c.w + x < 2 ^ 31) :
    ∃ c', Canvas.invertRows x y w left j c = some c' ∧ c.Draws c' (InBox x (y + j) w left) not := by
  induction left generalizing c j with
  | zero => exact ⟨c, rfl, Canvas.draws_none attached fun px py _ _ _ _ on => by unfold InBox at on; omega⟩
  | succ left ih =>
    rw [Canvas.invertRows]
    have short := attached.h_lt
    have isRow : int (y + j) = some (y + j) := int_eq_some ⟨by omega, by omega⟩
    have low : 0 ≤ (y + j) / 8 * c.w := Int.mul_nonneg (by omega) attached.w_nonneg
    have index : int ((y + j) / 8 * c.w + x) = some ((y + j) / 8 * c.w + x) :=
      int_eq_some ⟨by omega, fits (y + j) (Int.le_refl _) (by omega)⟩
    have masks : Masks (· ^^^ rowMask (y + j)) (fun k => k = ((y + j) % 8).toNat) not :=
      masks_xor.congr fun k small => bit_rowMask small
    obtain ⟨c₁, one, draws⟩ : ∃ c₁, Canvas.run (· ^^^ rowMask (y + j)) w.toNat ((y + j) / 8 * c.w + x) c = some c₁ ∧
        c.Draws c₁ (fun px py => (x ≤ px ∧ px < x + w.toNat) ∧ py / 8 = (y + j) / 8 ∧
          (py % 8).toNat = ((y + j) % 8).toNat) not := by
      by_cases none_ : w ≤ 0
      · have zero : w.toNat = 0 := Int.toNat_of_nonpos none_
        rw [zero]
        exact ⟨c, rfl, Canvas.draws_none attached fun px py _ _ _ _ on => by omega⟩
      · exact run_draws attached masks ⟨columns.1, by have := wide (by omega); omega⟩ ⟨first, by omega⟩
          fun k _ same => by omega
    obtain ⟨c₂, more, rest⟩ := @ih c₁ (draws.attached attached) (by rw [draws.w_eq]; exact columns)
      (by rw [draws.w_eq]; exact wide) (j + 1) (by omega) (by rw [draws.h_eq]; omega)
      (fun row low high => by rw [draws.w_eq]; exact fits row (by omega) (by omega))
    refine ⟨c₂, ?_, (draws.trans rest (.inr fun px py one two => by unfold InBox at two; omega)).congr
      fun px py _ _ _ _ => ?_⟩
    · have inside : ¬c.h ≤ y + j := by omega
      simp only [isRow, index, one, more, if_neg inside, Option.bind_eq_bind, Option.bind_some]
    · rw [InBox, InBox]
      omega

theorem invertRows_none (attached : c.Attached) {left : Nat} {j row : Int} (first : 0 ≤ y + j)
    (last : y + (j + left) ≤ c.h) (inside : y + j ≤ row ∧ row < y + (j + left))
    (none_ : w ≤ 0) (far : 2 ^ 31 ≤ row / 8 * c.w + x) :
    Canvas.invertRows x y w left j c = none := by
  induction left generalizing j with
  | zero => omega
  | succ left ih =>
    rw [Canvas.invertRows]
    have short := attached.h_lt
    have isRow : int (y + j) = some (y + j) := int_eq_some ⟨by omega, by omega⟩
    have shown : ¬c.h ≤ y + j := by omega
    have zero : w.toNat = 0 := Int.toNat_of_nonpos none_
    by_cases here : InInt ((y + j) / 8 * c.w + x)
    · have later : row ≠ y + j := by
        rintro rfl
        exact absurd here.2 (by omega)
      have more := @ih (j + 1) (by omega) (by omega) (by omega)
      simp only [isRow, int_eq_some here, if_neg shown, zero, Canvas.run, more, Option.bind_eq_bind, Option.bind_some]
    · simp only [isRow, int_eq_none here, if_neg shown, Option.bind_eq_bind, Option.bind_some, Option.bind_none]

/-- The box ends in 32 bits on each side, and so does the place of its last row where the rows are on the panel. -/
def TurnFits (c : Canvas) (x y w h : Int) : Prop :=
  (x < 0 → -2 ^ 31 ≤ x + w) ∧ (y < 0 → -2 ^ 31 ≤ y + h) ∧ x + w < 2 ^ 31 ∧ y + h < 2 ^ 31 ∧
    (max y 0 < min c.h (y + h) → (min c.h (y + h) - 1) / 8 * c.w + max x 0 < 2 ^ 31)

theorem invertRect_cases (attached : c.Attached) (isX : InInt x) (isY : InInt y) (isW : InInt w) (isH : InInt h)
    (fits : (x < 0 → -2 ^ 31 ≤ x + w) ∧ (y < 0 → -2 ^ 31 ≤ y + h) ∧ x + w < 2 ^ 31 ∧ y + h < 2 ^ 31) :
    c.invertRect x y w h = Canvas.invertRows (max x 0) (max y 0) (min (if x < 0 then w + x else w) (c.w - max x 0))
      (min (if y < 0 then h + y else h) (c.h - max y 0)).toNat 0 c := by
  obtain ⟨buf, is, -⟩ := attached.some_
  have short := attached.h_lt
  have above := attached.h_nonneg
  unfold InInt at isX isY isW isH
  have front := @cutFront_fits x w fun left => ⟨by omega, by omega⟩
  have top := @cutFront_fits y h fun left => ⟨by omega, by omega⟩
  have back : cutBack (max x 0) (if x < 0 then w + x else w) c.w = some _ :=
    cutBack_fits ⟨by omega, by omega⟩ ⟨attached.w_nonneg, attached.w_lt⟩ (by unfold InInt; split <;> omega)
  have bottom : cutBack (max y 0) (if y < 0 then h + y else h) c.h = some _ :=
    cutBack_fits ⟨by omega, by omega⟩ ⟨above, by omega⟩ (by unfold InInt; split <;> omega)
  unfold Canvas.invertRect
  rw [if_neg (by rw [is]; exact Option.some_ne_none _)]
  simp only [front, top, back, bottom, Option.bind_eq_bind, Option.bind_some]

theorem invertRect_draws (attached : c.Attached) (isX : InInt x) (isY : InInt y) (isW : InInt w) (isH : InInt h)
    (fits : TurnFits c x y w h) : ∃ c', c.invertRect x y w h = some c' ∧ c.Draws c' (InBox x y w h) not := by
  obtain ⟨left, top, right, below, index⟩ := fits
  rw [invertRect_cases attached isX isY isW isH ⟨left, top, right, below⟩]
  have wide := attached.w_nonneg
  have high := attached.h_nonneg
  obtain ⟨c', ran, draws⟩ := @invertRows_draws c (max x 0) (max y 0) (min (if x < 0 then w + x else w) (c.w - max x 0))
    attached (by split <;> omega) (by omega) (min (if y < 0 then h + y else h) (c.h - max y 0)).toNat 0 (by omega)
    (by omega) fun row low last => by
      have inPanel : row ≤ min c.h (y + h) - 1 := by
        split at last
        · omega
        · omega
      have page : row / 8 * c.w ≤ (min c.h (y + h) - 1) / 8 * c.w :=
        Int.mul_le_mul_of_nonneg_right (by omega) wide
      have := index (by omega)
      omega
  refine ⟨c', ran, draws.congr fun px py _ _ _ _ => ?_⟩
  rw [InBox, InBox]
  split
  · split
    · omega
    · omega
  · split
    · omega
    · omega

theorem invertRect_none (attached : c.Attached) (isX : InInt x) (isY : InInt y) (isW : InInt w) (isH : InInt h)
    (no : ¬TurnFits c x y w h) : c.invertRect x y w h = none := by
  obtain ⟨buf, is, room, small⟩ := attached.some_
  have wide := attached.w_nonneg
  have high := attached.h_nonneg
  by_cases fits : (x < 0 → -2 ^ 31 ≤ x + w) ∧ (y < 0 → -2 ^ 31 ≤ y + h) ∧ x + w < 2 ^ 31 ∧ y + h < 2 ^ 31
  · rw [invertRect_cases attached isX isY isW isH fits]
    have crossed : max y 0 < min c.h (y + h) ∧ ¬(min c.h (y + h) - 1) / 8 * c.w + max x 0 < 2 ^ 31 :=
      Classical.not_imp.mp fun index => no ⟨fits.1, fits.2.1, fits.2.2.1, fits.2.2.2, index⟩
    have outside : c.w ≤ max x 0 := by
      refine Int.not_lt.mp fun inside => crossed.2 ?_
      have pages : ((min c.h (y + h) - 1) / 8 + 1) * c.w ≤ (c.h + 7) / 8 * c.w :=
        Int.mul_le_mul_of_nonneg_right (by omega) wide
      rw [Int.add_mul, Int.one_mul, Int.mul_comm ((c.h + 7) / 8)] at pages
      omega
    refine @invertRows_none c (max x 0) (max y 0) _ attached _ 0 (min c.h (y + h) - 1) (by omega) ?_ ?_ ?_
      (by omega)
    · split <;> omega
    · split <;> omega
    · omega
  · unfold Canvas.invertRect
    rw [if_neg (by rw [is]; exact Option.some_ne_none _)]
    unfold InInt at isX isY isW isH
    have short := attached.h_lt
    have cut : ∀ a n : Int, ¬(a < 0 → -2 ^ 31 ≤ a + n) → cutFront a n = none := by
      intro a n far
      obtain ⟨front, low⟩ := Classical.not_imp.mp far
      rw [cutFront, if_pos front, int_eq_none fun isInt => low (by have := isInt.1; omega)]
      rfl
    have back : ∀ a n m : Int, InInt a → InInt n → (a < 0 → -2 ^ 31 ≤ a + n) → ¬a + n < 2 ^ 31 →
        ∃ p, cutFront a n = some p ∧ cutBack p.1 p.2 m = none := by
      intro a n m isA isN low far
      unfold InInt at isA isN
      refine ⟨_, cutFront_fits fun front => ⟨by have := low front; omega, by omega⟩, ?_⟩
      rw [cutBack, int_eq_none, Option.bind_none]
      rw [if_neg (by omega), max_eq_left (by omega)]
      exact fun isInt => far isInt.2
    by_cases left : x < 0 → -2 ^ 31 ≤ x + w
    · obtain ⟨p, front⟩ : ∃ p, cutFront x w = some p :=
        ⟨_, cutFront_fits fun neg => ⟨by have := left neg; omega, by omega⟩⟩
      by_cases top : y < 0 → -2 ^ 31 ≤ y + h
      · obtain ⟨q, above⟩ : ∃ q, cutFront y h = some q :=
          ⟨_, cutFront_fits fun neg => ⟨by have := top neg; omega, by omega⟩⟩
        simp only [front, above, Option.bind_eq_bind, Option.bind_some]
        by_cases right : x + w < 2 ^ 31
        · obtain ⟨q', above', below⟩ := back y h c.h isY isH top fun bottom => fits ⟨left, top, right, bottom⟩
          obtain rfl := Option.some.inj (above.symm.trans above')
          rw [below]
          simp only [Option.bind_none, Option.bind_fun_none]
        · obtain ⟨p', front', behind⟩ := back x w c.w isX isW left right
          obtain rfl := Option.some.inj (front.symm.trans front')
          rw [behind]
          rfl
      · simp only [front, cut y h top, Option.bind_eq_bind, Option.bind_some, Option.bind_none]
    · simp only [cut x w left, Option.bind_eq_bind, Option.bind_none]

/-! ### Discs -/

/-- A guess that is not too small is stepped down to the root. -/
theorem isqrtLoop_eq {n x : Nat} (positive : 1 ≤ x) (most : x ≤ n) (small : n + 1 < 2 ^ 31)
    (high : n < (x + 1) * (x + 1)) {fuel : Nat} (enough : x ≤ fuel) :
    isqrtLoop n fuel x (((x + n / x : Nat) : Int) / 2) = some ((Nat.sqrt n : Nat) : Int) := by
  induction fuel generalizing x with
  | zero => omega
  | succ fuel ih =>
    have quotient : 1 ≤ n / x := Nat.div_pos most positive
    have below : n < (n / x + 1) * x := Nat.lt_mul_of_div_lt (Nat.lt_succ_self _) positive
    have half : ((x + n / x : Nat) : Int) / 2 = ((x + n / x) / 2 : Nat) := rfl
    rw [isqrtLoop, half]
    generalize next : (x + n / x) / 2 = y
    have least : 1 ≤ y := by omega
    by_cases down : y < x
    · rw [if_pos (by exact_mod_cast down)]
      have quotient' : 1 ≤ n / y := Nat.div_pos (by omega) least
      have product : n / y * y ≤ n := Nat.div_mul_le_self n y
      have sum : y + n / y ≤ n + 1 := by nlinarith
      have cast : (y : Int) + (n : Int) / y = ((y + n / y : Nat) : Int) := by push_cast; rfl
      have high' : n < (y + 1) * (y + 1) := by
        have double : x + (n / x + 1) ≤ 2 * (y + 1) := by omega
        have mean : 4 * ((n / x + 1) * x) ≤ (x + (n / x + 1)) * (x + (n / x + 1)) := by
          zify
          nlinarith [sq_nonneg ((x : Int) - (n / x + 1))]
        have square := Nat.mul_le_mul double double
        nlinarith
      rw [cast, int_eq_some ⟨by omega, by omega⟩]
      exact ih least (by omega) high' (by omega)
    · rw [if_neg (by exact_mod_cast down)]
      have low : x * x ≤ n := by
        have less : x ≤ n / x := by omega
        exact (Nat.mul_le_mul_right x less).trans (Nat.div_mul_le_self n x)
      rw [Nat.eq_sqrt.mpr ⟨low, high⟩]

theorem isqrt_eq {n : Nat} (small : n + 1 < 2 ^ 31) : isqrt n = some ((Nat.sqrt n : Nat) : Int) := by
  unfold isqrt
  by_cases tiny : n < 2
  · rw [if_pos (by omega), if_neg (by omega)]
    interval_cases n
    · rfl
    · rfl
  · rw [if_neg (by omega)]
    have cast : (n : Int) + 1 = ((n + n / n : Nat) : Int) := by
      rw [Nat.div_self (by omega)]
      rfl
    rw [cast, int_eq_some ⟨by omega, by rw [Nat.div_self (by omega)]; omega⟩]
    exact isqrtLoop_eq (by omega) (Nat.le_refl n) small (by nlinarith) (Nat.le_refl n)

/-- The points of a disc. -/
def InDisc (cx cy r px py : Int) : Prop :=
  if r ≤ 0 then px = cx ∧ py = cy else (px - cx) * (px - cx) + (py - cy) * (py - cy) ≤ r * r

instance (cx cy r px py : Int) : Decidable (InDisc cx cy r px py) :=
  inferInstanceAs (Decidable (if r ≤ 0 then px = cx ∧ py = cy else _))

/-- Half the width of a disc at a distance from its middle. -/
def halfWidth (r dy : Int) : Int := (Nat.sqrt (r * r - dy * dy).toNat : Nat)

/-- A row of the disc is in 32 bits; its right end counts only where the row is on the panel. -/
def RowFits (c : Canvas) (cx cy r dy : Int) : Prop :=
  -2 ^ 31 ≤ cx - halfWidth r dy ∧ InInt (cy + dy) ∧
    (0 ≤ cy + dy ∧ cy + dy < c.h → cx + halfWidth r dy + 1 < 2 ^ 31)

theorem halfWidth_iff {r dy d : Int} (inside : dy * dy ≤ r * r) :
    -halfWidth r dy ≤ d ∧ d ≤ halfWidth r dy ↔ d * d + dy * dy ≤ r * r := by
  have root : d.natAbs ≤ Nat.sqrt (r * r - dy * dy).toNat ↔ d.natAbs * d.natAbs ≤ (r * r - dy * dy).toNat := Nat.le_sqrt
  have square : ((d.natAbs * d.natAbs : Nat) : Int) = d * d := Int.natAbs_mul_self
  rw [halfWidth]
  omega

theorem halfWidth_le {r dy : Int} (positive : 0 ≤ r) (inside : dy * dy ≤ r * r) :
    0 ≤ halfWidth r dy ∧ halfWidth r dy ≤ r := by
  refine ⟨Int.natCast_nonneg _, ?_⟩
  have most := (halfWidth_iff inside).mp ⟨by have : 0 ≤ halfWidth r dy := Int.natCast_nonneg _; omega, Int.le_refl _⟩
  nlinarith [mul_self_nonneg dy]

theorem square_le {r dy : Int} (low : -r ≤ dy) (high : dy ≤ r) : dy * dy ≤ r * r := by nlinarith

theorem radius_le {r : Int} (fits : r * r < 2 ^ 31) : r ≤ 46340 := by
  apply Int.not_lt.mp
  intro large
  have square : 46341 * 46341 ≤ r * r := Int.mul_le_mul (by omega) (by omega) (by omega) (by omega)
  omega

theorem isqrt_row {r dy : Int} (positive : 0 < r) (fits : r * r < 2 ^ 31) (low : -r ≤ dy) (high : dy ≤ r) :
    int (r * r) = some (r * r) ∧ int (dy * dy) = some (dy * dy) ∧ int (r * r - dy * dy) = some (r * r - dy * dy) ∧
      isqrt (r * r - dy * dy) = some (halfWidth r dy) := by
  have inside := square_le low high
  have square := mul_self_nonneg dy
  have bound := radius_le fits
  have most : r * r ≤ 46340 * 46340 := Int.mul_le_mul bound bound (by omega) (by omega)
  refine ⟨int_eq_some ⟨by omega, fits⟩, int_eq_some ⟨by omega, by omega⟩, int_eq_some ⟨by omega, by omega⟩, ?_⟩
  have cast : (r * r - dy * dy) = (((r * r - dy * dy).toNat : Nat) : Int) := by omega
  rw [halfWidth, cast, Int.toNat_natCast]
  exact isqrt_eq (by omega)

theorem row_ints {cx d r : Int} (isCx : InInt cx) (least : 0 ≤ d) (most : d ≤ r) (bound : r ≤ 46340)
    (start : -2 ^ 31 ≤ cx - d) : InInt (cx - d) ∧ InInt (2 * d) ∧ InInt (2 * d + 1) := by
  unfold InInt at *
  omega

theorem fillSpan_draws {cx cy r dy : Int} (attached : c.Attached) (positive : 0 < r) (fits : r * r < 2 ^ 31)
    (isCx : InInt cx) (low : -r ≤ dy) (high : dy ≤ r) (row : RowFits c cx cy r dy) :
    ∃ c', c.fillSpan cx cy r dy lit = some c' ∧
      c.Draws c' (fun px py => py - cy = dy ∧ (px - cx) * (px - cx) + dy * dy ≤ r * r) fun _ => lit := by
  obtain ⟨square, square', room, root⟩ := isqrt_row positive fits low high
  obtain ⟨start, height, stop⟩ := row
  have inside := square_le low high
  have bound := radius_le fits
  obtain ⟨least, most⟩ := halfWidth_le (Int.le_of_lt positive) inside
  have width := fun d => @halfWidth_iff r dy d inside
  generalize halfWidth r dy = d at start stop root least most width
  obtain ⟨isX, double, length⟩ := row_ints isCx least most bound start
  have spans : cy + dy < 0 ∨ c.h ≤ cy + dy ∨ SpanFits (cx - d) (2 * d + 1) := by
    rw [spanFits_positive (by omega)]
    omega
  obtain ⟨c', drawn, draws⟩ := @hline_draws c (cx - d) (cy + dy) (2 * d + 1) lit attached isX length spans
  refine ⟨c', ?_, draws.congr fun px py _ _ _ _ => ?_⟩
  · rw [Canvas.fillSpan, square, Option.bind_some, square', Option.bind_some, room, Option.bind_some, root,
      Option.bind_some, int_eq_some isX, Option.bind_some, int_eq_some height, Option.bind_some, int_eq_some double,
      Option.bind_some, int_eq_some length, Option.bind_some, drawn]
  · rw [OnRow, span_positive (by omega), ← width]
    omega

theorem fillSpan_none {cx cy r dy : Int} (attached : c.Attached) (positive : 0 < r) (fits : r * r < 2 ^ 31)
    (isCx : InInt cx) (low : -r ≤ dy) (high : dy ≤ r) (no : ¬RowFits c cx cy r dy) :
    c.fillSpan cx cy r dy lit = none := by
  obtain ⟨square, square', room, root⟩ := isqrt_row positive fits low high
  have bound := radius_le fits
  obtain ⟨least, most⟩ := halfWidth_le (Int.le_of_lt positive) (square_le low high)
  unfold RowFits at no
  generalize halfWidth r dy = d at no root least most
  rw [Canvas.fillSpan, square, Option.bind_some, square', Option.bind_some, room, Option.bind_some, root,
    Option.bind_some]
  by_cases start : -2 ^ 31 ≤ cx - d
  · obtain ⟨isX, double, length⟩ := row_ints isCx least most bound start
    rw [int_eq_some isX, Option.bind_some]
    by_cases height : InInt (cy + dy)
    · rw [int_eq_some height, Option.bind_some, int_eq_some double, Option.bind_some, int_eq_some length, Option.bind_some]
      refine hline_none attached isX length fun spans => no ⟨start, height, fun shown => ?_⟩
      rw [spanFits_positive (by omega)] at spans
      omega
    · rw [int_eq_none height, Option.bind_none]
  · rw [int_eq_none fun isInt => start isInt.1, Option.bind_none]

theorem fillSpans_draws {cx cy r : Int} (attached : c.Attached) (positive : 0 < r) (fits : r * r < 2 ^ 31)
    (isCx : InInt cx) {left : Nat} {dy : Int} (low : -r ≤ dy) (last : dy + left = r + 1)
    (rows : ∀ d, dy ≤ d → d ≤ r → RowFits c cx cy r d) :
    ∃ c', Canvas.fillSpans lit cx cy r left dy c = some c' ∧
      c.Draws c' (fun px py => dy ≤ py - cy ∧ InDisc cx cy r px py) fun _ => lit := by
  induction left generalizing c dy with
  | zero =>
    refine ⟨c, rfl, Canvas.draws_none attached fun px py _ _ _ _ on => ?_⟩
    obtain ⟨far, inside⟩ := on
    rw [InDisc, if_neg (by omega)] at inside
    have beside := mul_self_nonneg (px - cx)
    have beyond : (r + 1) * (r + 1) ≤ (py - cy) * (py - cy) := Int.mul_le_mul (by omega) (by omega) (by omega) (by omega)
    have square : (r + 1) * (r + 1) = r * r + 2 * r + 1 := by ring
    omega
  | succ left ih =>
    have high : dy ≤ r := by omega
    obtain ⟨c₁, one, draws⟩ := @fillSpan_draws c lit cx cy r dy attached positive fits isCx low high
      (rows dy (Int.le_refl _) high)
    obtain ⟨c₂, more, rest⟩ := @ih c₁ (draws.attached attached) (dy + 1) (by omega) (by omega) fun d' low' high' => by
      unfold RowFits
      rw [draws.h_eq]
      exact rows d' (by omega) high'
    refine ⟨c₂, ?_, (draws.trans rest (.inl fun _ => rfl)).congr fun px py _ _ _ _ => ?_⟩
    · rw [Canvas.fillSpans, one, Option.bind_some, more]
    · rw [InDisc, if_neg (by omega)]
      constructor
      · rintro (⟨here, disc⟩ | ⟨below, disc⟩)
        · rw [here]
          exact ⟨Int.le_refl _, disc⟩
        · exact ⟨by omega, disc⟩
      · rintro ⟨below, disc⟩
        by_cases here : py - cy = dy
        · rw [here] at disc
          exact .inl ⟨here, disc⟩
        · exact .inr ⟨by omega, disc⟩

theorem fillSpans_none {cx cy r d : Int} (attached : c.Attached) (positive : 0 < r) (fits : r * r < 2 ^ 31)
    (isCx : InInt cx) {left : Nat} {dy : Int} (low : -r ≤ dy) (last : dy + left = r + 1) (inside : dy ≤ d ∧ d ≤ r)
    (no : ¬RowFits c cx cy r d) : Canvas.fillSpans lit cx cy r left dy c = none := by
  induction left generalizing c dy with
  | zero => omega
  | succ left ih =>
    have high : dy ≤ r := by omega
    rw [Canvas.fillSpans]
    by_cases row : RowFits c cx cy r dy
    · obtain ⟨c₁, one, draws⟩ := @fillSpan_draws c lit cx cy r dy attached positive fits isCx low high row
      have later : d ≠ dy := fun same => no (same ▸ row)
      have no' : ¬RowFits c₁ cx cy r d := by
        unfold RowFits at no ⊢
        rw [draws.h_eq]
        exact no
      rw [one, Option.bind_some]
      exact ih (draws.attached attached) (by omega) (by omega) (by omega) no'
    · rw [fillSpan_none attached positive fits isCx low high row, Option.bind_none]

/-- A disc is in 32 bits: the square of its radius, and every row. -/
def DiscFits (c : Canvas) (cx cy r : Int) : Prop :=
  r ≤ 0 ∨ r * r < 2 ^ 31 ∧ ∀ dy, -r ≤ dy → dy ≤ r → RowFits c cx cy r dy

theorem pixel_draws (attached : c.Attached) :
    ∃ c', c.pixel x y lit = some c' ∧ c.Draws c' (fun px py => px = x ∧ py = y) fun _ => lit := by
  obtain ⟨buf, is, -⟩ := attached.some_
  by_cases out : x < 0 ∨ y < 0 ∨ c.w ≤ x ∨ c.h ≤ y
  · refine ⟨c, ?_, Canvas.draws_none attached fun px py _ _ _ _ on => by omega⟩
    rw [Canvas.pixel, is]
    exact if_pos out
  · have masks : Masks (draw lit (rowMask y)) (fun j => j = (y % 8).toNat) fun _ => lit :=
      masks_draw.congr fun j small => bit_rowMask small
    obtain ⟨buf', c', is', index, poked, draws⟩ := poke_draws attached masks (⟨by omega, by omega⟩ : 0 ≤ x ∧ x < c.w)
      (⟨by omega, by omega⟩ : 0 ≤ y ∧ y < c.h) fun j _ same => by omega
    obtain rfl := Option.some.inj (is.symm.trans is')
    refine ⟨c', ?_, draws.congr fun px py _ _ _ _ => by omega⟩
    rw [Canvas.pixel, is]
    dsimp only
    rw [if_neg out, index, Option.bind_some, poked]

theorem fillCircle_draws {cx cy r : Int} (attached : c.Attached) (isCx : InInt cx)
    (fits : DiscFits c cx cy r) :
    ∃ c', c.fillCircle cx cy r lit = some c' ∧ c.Draws c' (InDisc cx cy r) fun _ => lit := by
  unfold Canvas.fillCircle
  by_cases point : r ≤ 0
  · rw [if_pos point]
    obtain ⟨c', drawn, draws⟩ := @pixel_draws c cx cy lit attached
    exact ⟨c', drawn, draws.congr fun px py _ _ _ _ => by rw [InDisc, if_pos point]⟩
  · rw [if_neg point]
    obtain ⟨square, rows⟩ := fits.resolve_left point
    have bound := radius_le square
    have low : int (-r) = some (-r) := int_eq_some ⟨by omega, by omega⟩
    obtain ⟨c', drawn, draws⟩ := @fillSpans_draws c lit cx cy r attached (by omega) square isCx (2 * r + 1).toNat (-r)
      (Int.le_refl _) (by omega) rows
    refine ⟨c', ?_, draws.congr fun px py _ _ _ _ => ⟨fun both => both.2, fun disc => ⟨?_, disc⟩⟩⟩
    · rw [low]
      exact drawn
    · rw [InDisc, if_neg point] at disc
      apply Int.not_lt.mp
      intro far
      have beside := mul_self_nonneg (px - cx)
      have beyond : (r + 1) * (r + 1) ≤ (cy - py) * (cy - py) := Int.mul_le_mul (by omega) (by omega) (by omega) (by omega)
      have turned : (cy - py) * (cy - py) = (py - cy) * (py - cy) := by ring
      have square : (r + 1) * (r + 1) = r * r + 2 * r + 1 := by ring
      omega

theorem fillCircle_none {cx cy r : Int} (attached : c.Attached) (isCx : InInt cx) (isR : InInt r)
    (no : ¬DiscFits c cx cy r) : c.fillCircle cx cy r lit = none := by
  obtain ⟨point, far⟩ := not_or.mp no
  unfold InInt at isR
  have low : int (-r) = some (-r) := int_eq_some ⟨by omega, by omega⟩
  unfold Canvas.fillCircle
  rw [if_neg point, low]
  show Canvas.fillSpans lit cx cy r (2 * r + 1).toNat (-r) c = none
  by_cases square : r * r < 2 ^ 31
  · obtain ⟨d, outside⟩ := Classical.not_forall.mp fun all => far ⟨square, all⟩
    obtain ⟨least, outside⟩ := Classical.not_imp.mp outside
    obtain ⟨most, row⟩ := Classical.not_imp.mp outside
    exact fillSpans_none attached (by omega) square isCx (Int.le_refl _) (by omega) ⟨least, most⟩ row
  · obtain ⟨left, eq⟩ : ∃ left, (2 * r + 1).toNat = left + 1 := ⟨(2 * r).toNat, by omega⟩
    rw [eq, Canvas.fillSpans, Canvas.fillSpan, int_eq_none fun isInt => square isInt.2, Option.bind_none, Option.bind_none]

/-! ### Pixel by pixel -/

/-- The points of the panel. -/
def Canvas.points (c : Canvas) : List (Int × Int) :=
  (List.range c.w.toNat).flatMap fun (x : Nat) => (List.range c.h.toNat).map fun (y : Nat) => ((x : Int), (y : Int))

/-- The picture after `g` is done to each pixel of a shape that is on the panel, with `pixel`. -/
def Canvas.paint (c : Canvas) (S : Int → Int → Prop) [∀ x y, Decidable (S x y)] (g : Bool → Bool) : Option Canvas :=
  (c.points.filter fun p => decide (S p.1 p.2)).foldlM (fun c p => c.pixel p.1 p.2 (g (c.get p.1 p.2))) c

theorem get_eq_bit (is : c.buf = some buf) (column : 0 ≤ x ∧ x < c.w) (row : 0 ≤ y ∧ y < c.h) :
    c.get x y = bit (buf.getD (y / 8 * c.w + x).toNat 0) (y % 8).toNat := by
  rw [Canvas.get, is]
  dsimp only
  rw [if_neg (by omega)]
  generalize buf.getD (y / 8 * c.w + x).toNat 0 = b
  have small : (y % 8).toNat < 8 := by omega
  generalize (y % 8).toNat = j at small
  have shifted : (b >>> UInt8.ofNat j &&& 1).toNat = b.toNat >>> j % 2 := by
    rw [UInt8.toNat_and, UInt8.toNat_shiftRight]
    have amount : (UInt8.ofNat j).toNat % 8 = j := by
      rw [UInt8.toNat_ofNat']
      omega
    rw [amount]
    exact Nat.and_one_is_mod _
  have one : (b >>> UInt8.ofNat j &&& 1 = 1) ↔ b.toNat >>> j % 2 = 1 := by
    rw [← UInt8.toNat_inj, shifted]
    rfl
  rw [bit, Nat.testBit_eq_decide_div_mod_eq, ← Nat.shiftRight_eq_div_pow]
  exact decide_eq_decide.mpr one

theorem pixel_get_draws (attached : c.Attached) :
    ∃ c', c.pixel x y (g (c.get x y)) = some c' ∧ c.Draws c' (fun px py => px = x ∧ py = y) g := by
  obtain ⟨c', drawn, draws⟩ := @pixel_draws c x y (g (c.get x y)) attached
  refine ⟨c', drawn, draws.w_eq, draws.h_eq, ?_⟩
  obtain ⟨buf, buf', is, is', size, bits⟩ := draws.bits
  refine ⟨buf, buf', is, is', size, fun k j small => ⟨fun covered => ?_, (bits k j small).2⟩⟩
  obtain ⟨wide, high, column, row⟩ := covered
  have page : 0 ≤ (k : Int) / c.w := Int.ediv_nonneg (Int.natCast_nonneg k) (Int.le_of_lt wide)
  have low := Int.emod_nonneg (k : Int) (show c.w ≠ 0 by omega)
  have most := Int.emod_lt_of_pos (k : Int) wide
  have place : (y / 8 * c.w + x).toNat = k := by
    have same : y / 8 = (k : Int) / c.w := by omega
    rw [same, ← column, Int.mul_comm, Int.mul_ediv_add_emod]
    rfl
  have bitPlace : (y % 8).toNat = j := by omega
  rw [(bits k j small).1 ⟨wide, high, column, row⟩, get_eq_bit is (by omega) (by omega), place, bitPlace]

theorem foldlM_draws (attached : c.Attached) {l : List (Int × Int)} (distinct : l.Nodup) :
    ∃ c', l.foldlM (fun c p => c.pixel p.1 p.2 (g (c.get p.1 p.2))) c = some c' ∧
      c.Draws c' (fun px py => (px, py) ∈ l) g := by
  induction l generalizing c with
  | nil => exact ⟨c, rfl, Canvas.draws_none attached fun px py _ _ _ _ no => absurd no List.not_mem_nil⟩
  | cons p l ih =>
    obtain ⟨new, distinct⟩ := List.nodup_cons.mp distinct
    obtain ⟨c₁, one, draws⟩ := @pixel_get_draws c g p.1 p.2 attached
    obtain ⟨c₂, more, rest⟩ := ih (draws.attached attached) distinct
    refine ⟨c₂, ?_, (draws.trans rest (.inr fun px py same mem => ?_)).congr fun px py _ _ _ _ => ?_⟩
    · rw [List.foldlM_cons, one]
      exact more
    · obtain ⟨rfl, rfl⟩ := same
      exact new mem
    · rw [List.mem_cons, Prod.ext_iff]

theorem mem_points : (x, y) ∈ c.points ↔ (0 ≤ x ∧ x < c.w) ∧ 0 ≤ y ∧ y < c.h := by
  simp only [Canvas.points, List.mem_flatMap, List.mem_map, List.mem_range, Prod.mk.injEq]
  constructor
  · rintro ⟨a, isA, b, isB, rfl, rfl⟩
    omega
  · rintro ⟨column, row⟩
    exact ⟨x.toNat, by omega, y.toNat, by omega, by omega, by omega⟩

theorem nodup_points : c.points.Nodup := by
  refine List.nodup_flatMap.mpr ⟨fun x _ => ?_, ?_⟩
  · refine List.Nodup.map (fun a b same => ?_) List.nodup_range
    exact Int.ofNat.inj (Prod.mk.inj same).2
  · refine List.nodup_range.imp fun {a b} other => ?_
    rintro ⟨px, py⟩ first second
    obtain ⟨_, -, first⟩ := List.mem_map.mp first
    obtain ⟨_, -, second⟩ := List.mem_map.mp second
    exact other (Int.ofNat.inj ((Prod.mk.inj first).1.trans (Prod.mk.inj second).1.symm))

/-- What draws a shape paints it. -/
theorem Canvas.Draws.eq_paint [∀ x y, Decidable (S x y)] (draws : c.Draws c' S g) (attached : c.Attached) :
    c.paint S g = some c' := by
  obtain ⟨c'', painted, shape⟩ := @foldlM_draws c g attached _ (nodup_points.filter fun p => decide (S p.1 p.2))
  have same := shape.congr (T := S) fun px py left right top bottom => by
    rw [List.mem_filter, mem_points, decide_eq_true_eq]
    exact and_iff_right ⟨⟨left, right⟩, top, bottom⟩
  rw [draws.unique same]
  exact painted

theorem paint_ne_none [∀ x y, Decidable (S x y)] (attached : c.Attached) : c.paint S g ≠ none := by
  obtain ⟨c'', painted, -⟩ := @foldlM_draws c g attached _ (nodup_points.filter fun p => decide (S p.1 p.2))
  rw [Canvas.paint, painted]
  exact Option.some_ne_none _

/-- The primitives touch the buffer alone and agree with `pixel` exactly when their sums are in 32 bits. -/
theorem primitives_iff (attached : c.Attached) (isX : InInt x) (isY : InInt y) (isLen : InInt len) (isW : InInt w)
    (isH : InInt h) (lit : Bool) :
    (c.hline x y len lit = c.paint (OnRow x y len) (fun _ => lit) ↔ y < 0 ∨ c.h ≤ y ∨ SpanFits x len) ∧
    (c.vline x y len lit = c.paint (OnColumn x y len) (fun _ => lit) ↔ x < 0 ∨ c.w ≤ x ∨ SpanFits y len) ∧
    (c.rect x y w h lit = c.paint (OnEdge x y w h) (fun _ => lit) ↔
      w ≤ 0 ∨ h ≤ 0 ∨ x + w < 2 ^ 31 ∧ y + h < 2 ^ 31) ∧
    (c.fillRect x y w h lit = c.paint (InBox x y w h) (fun _ => lit) ↔ BoxFits c x y w h) ∧
    (c.invertRect x y w h = c.paint (InBox x y w h) not ↔ TurnFits c x y w h) ∧
    (c.fillCircle x y len lit = c.paint (InDisc x y len) (fun _ => lit) ↔ DiscFits c x y len) := by
  have close : ∀ {S : Int → Int → Prop} [∀ x y, Decidable (S x y)] {g : Bool → Bool} {r : Option Canvas} {P : Prop},
      (P → ∃ c', r = some c' ∧ c.Draws c' S g) → (¬P → r = none) → (r = c.paint S g ↔ P) := by
    intro S _ g r P fits no
    constructor
    · intro same
      by_contra far
      exact paint_ne_none attached (same.symm.trans (no far))
    · intro good
      obtain ⟨c', is, draws⟩ := fits good
      rw [is, draws.eq_paint attached]
  exact ⟨close (hline_draws attached isX isLen) (hline_none attached isX isLen),
    close (vline_draws attached isY isLen) (vline_none attached isY isLen),
    close (rect_draws attached isX isY isW isH) rect_none,
    close (fillRect_draws attached isX isY isH) (fillRect_none attached isY isH),
    close (invertRect_draws attached isX isY isW isH) (invertRect_none attached isX isY isW isH),
    close (fillCircle_draws attached isX) (fillCircle_none attached isX isLen)⟩

/-- A panel of eight pixels by eight. -/
def smallPanel : Canvas := ⟨some (List.replicate 8 0), 8, 8⟩

theorem smallPanel_attached : smallPanel.Attached :=
  ⟨⟨_, rfl, by decide, by decide⟩, by decide, by decide, by decide, by decide⟩

theorem primitives_iff_inside :
    smallPanel.hline (-3) 2 5 true = smallPanel.paint (OnRow (-3) 2 5) fun _ => true :=
  (primitives_iff smallPanel_attached (x := -3) (y := 2) (w := 1) (h := 1) (by decide) (by decide)
    (by decide : InInt 5) (by decide) (by decide) true).1.mpr
      (.inr (.inr ((spanFits_positive (by decide)).mpr (by decide))))

theorem not_all_primitives : ¬∀ (c : Canvas) (x y len : Int) (lit : Bool), c.Attached → InInt x → InInt y → InInt len →
    c.hline x y len lit = c.paint (OnRow x y len) fun _ => lit := by
  intro all
  have same := all smallPanel (2 ^ 31 - 1) 0 1 true smallPanel_attached (by decide) (by decide)
    (by decide)
  refine paint_ne_none smallPanel_attached (same.symm.trans ?_)
  apply hline_none smallPanel_attached (by decide) (by decide)
  rw [spanFits_positive (by decide)]
  decide

end RPCortex.Nova
