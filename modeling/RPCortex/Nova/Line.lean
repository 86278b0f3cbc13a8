import RPCortex.Nova.Canvas

/-! `Canvas::line` of `novacanvas.cpp`.  A line along an axis is a run of a signed length; any other one goes through
Bresenham's, whose errors are told here by the steps that are left on either axis. -/

namespace RPCortex.Nova

/-- The signed length that `line` hands to `hline` and `vline`. -/
def runLen (a b : Int) : Option Int := (int (b - a)).bind fun d => int (d + if a ≤ b then 1 else -1)

/-- What a sum of Bresenham's does to a place. -/
def stepped (take : Bool) (err change p by_ : Int) : Option (Int × Int) :=
  if take then (int (err + change)).bind fun err => (int (p + by_)).map fun p => (err, p) else some (err, p)

/-- The loop of `Canvas::line`. -/
def Canvas.lineLoop (lit : Bool) (x1 y1 dx dy sx sy : Int) :
    (fuel : Nat) → (x y err : Int) → Canvas → Option Canvas
  | 0, _, _, _, _ => none
  | fuel + 1, x, y, err, c =>
    (c.pixel x y lit).bind fun c =>
      if x = x1 ∧ y = y1 then some c
      else
        (int (err * 2)).bind fun e2 =>
        (stepped (-dy < e2) err (-dy) x sx).bind fun p =>
        (stepped (e2 < dx) p.1 dx y sy).bind fun q => Canvas.lineLoop lit x1 y1 dx dy sx sy fuel p.2 q.2 q.1 c

/-- A distance, as `line` takes it. -/
def distance (a b : Int) : Option Int := (int (b - a)).bind fun d => if d < 0 then int (-d) else some d

/-- `Canvas::line`.  The loop takes a step on an axis in every pass. -/
def Canvas.line (c : Canvas) (x0 y0 x1 y1 : Int) (lit : Bool) : Option Canvas :=
  if y0 = y1 then (runLen x0 x1).bind fun len => c.hline x0 y0 len lit
  else if x0 = x1 then (runLen y0 y1).bind fun len => c.vline x0 y0 len lit
  else
    (distance x0 x1).bind fun dx => (distance y0 y1).bind fun dy => (int (dx - dy)).bind fun err =>
      Canvas.lineLoop lit x1 y1 dx dy (if x0 < x1 then 1 else -1) (if y0 < y1 then 1 else -1) (dx + dy + 1).toNat
        x0 y0 err c

/-- A pixel of the panel. -/
def Canvas.On (c : Canvas) (x y : Int) : Prop := (0 ≤ x ∧ x < c.w) ∧ 0 ≤ y ∧ y < c.h

/-- A point of the box that two points span. -/
def Between (a b p : Int) : Prop := min a b ≤ p ∧ p ≤ max a b

/-- A line joins its ends: both are lit, nothing outside of their box is changed, and along an axis all between them
is lit. -/
structure Joins (c c' : Canvas) (x0 y0 x1 y1 : Int) : Prop where
  first : c.On x0 y0 → c'.get x0 y0 = true
  last : c.On x1 y1 → c'.get x1 y1 = true
  inside : ∀ x y, c.On x y → ¬(Between x0 x1 x ∧ Between y0 y1 y) → c'.get x y = c.get x y
  all : x0 = x1 ∨ y0 = y1 → ∀ x y, c.On x y → Between x0 x1 x → Between y0 y1 y → c'.get x y = true

/-- `line` joins two points on every picture of a panel. -/
def LineJoins (c : Canvas) (x0 y0 x1 y1 : Int) : Prop :=
  ∀ c₁ : Canvas, c₁.Attached → c₁.w = c.w → c₁.h = c.h →
    ∃ c', c₁.line x0 y0 x1 y1 true = some c' ∧ Joins c₁ c' x0 y0 x1 y1

/-- A run along an axis of `w` pixels is in 32 bits; a run to the left, which is drawn a place too far, has neither
its first place nor the one behind its last on the axis. -/
def RunFits (w a b : Int) (shown : Prop) : Prop :=
  if a ≤ b then b - a + 1 < 2 ^ 31 ∧ (shown → b + 1 < 2 ^ 31)
  else -2 ^ 31 ≤ b - a - 1 ∧
    (shown → (-2 ^ 31 ≤ b - 1 ∧ -2 ^ 31 < b - a - 1) ∧ ¬(0 ≤ a ∧ a < w) ∧ ¬(0 ≤ b - 1 ∧ b - 1 < w))

variable {c c' : Canvas} {S : Int → Int → Prop} {g : Bool → Bool} {lit : Bool} {x y len x0 y0 x1 y1 : Int}

theorem Canvas.Draws.get_eq (draws : c.Draws c' S g) (on : c.On x y) :
    (S x y → c'.get x y = g (c.get x y)) ∧ (¬S x y → c'.get x y = c.get x y) := by
  obtain ⟨column, row⟩ := on
  obtain ⟨buf, buf', is, is', size, bits⟩ := draws.bits
  have low : 0 ≤ y / 8 * c.w := Int.mul_nonneg (by omega) (by omega)
  have cast : (((y / 8 * c.w + x).toNat : Nat) : Int) = y / 8 * c.w + x := Int.toNat_of_nonneg (by omega)
  have quotient : (y / 8 * c.w + x) / c.w = y / 8 := by
    rw [Int.add_comm, Int.add_mul_ediv_right _ _ (by omega), Int.ediv_eq_zero_of_lt column.1 column.2, Int.zero_add]
  have rest : (y / 8 * c.w + x) % c.w = x := by
    rw [Int.add_comm, Int.add_mul_emod_self_right, Int.emod_eq_of_lt column.1 column.2]
  have whole : y / 8 * 8 + (((y % 8).toNat : Nat) : Int) = y := by omega
  have covers : c.Covers S (y / 8 * c.w + x).toNat (y % 8).toNat ↔ S x y := by
    rw [Canvas.Covers, cast, quotient, rest, whole]
    exact ⟨fun all => all.2.2, fun inS => ⟨by omega, row.2, inS⟩⟩
  rw [get_eq_bit is column row, get_eq_bit is' (draws.w_eq ▸ column) (draws.h_eq ▸ row), draws.w_eq, ← covers]
  exact bits _ _ (by omega)

/-! ### Along an axis -/

theorem runLen_eq (fits : if x0 ≤ x1 then x1 - x0 + 1 < 2 ^ 31 else -2 ^ 31 ≤ x1 - x0 - 1) :
    ∃ len, runLen x0 x1 = some len ∧ InInt len ∧ (x0 ≤ x1 → len = x1 - x0 + 1) ∧ (¬x0 ≤ x1 → len = x1 - x0 - 1) := by
  unfold runLen InInt
  by_cases right : x0 ≤ x1
  · rw [if_pos right] at fits
    rw [int_eq_some ⟨by omega, by omega⟩, Option.bind_some, if_pos right, int_eq_some ⟨by omega, by omega⟩]
    exact ⟨_, rfl, by omega, fun _ => rfl, fun no => absurd right no⟩
  · rw [if_neg right] at fits
    rw [int_eq_some ⟨by omega, by omega⟩, Option.bind_some, if_neg right, int_eq_some ⟨by omega, by omega⟩]
    exact ⟨_, rfl, by omega, fun no => absurd no right, fun _ => rfl⟩

theorem runLen_none (no : ¬if x0 ≤ x1 then x1 - x0 + 1 < 2 ^ 31 else -2 ^ 31 ≤ x1 - x0 - 1) : runLen x0 x1 = none := by
  unfold runLen
  by_cases isInt : InInt (x1 - x0)
  · rw [int_eq_some isInt, Option.bind_some]
    refine int_eq_none fun sum => no ?_
    unfold InInt at sum
    split
    · rename_i right
      rw [if_pos right] at sum
      omega
    · rename_i left
      rw [if_neg left] at sum
      omega
  · rw [int_eq_none isInt]
    rfl

theorem span_run {p : Int} (right : x0 ≤ x1 → len = x1 - x0 + 1) (left : ¬x0 ≤ x1 → len = x1 - x0 - 1) :
    (x0 ≤ x1 → (Span x0 len p ↔ Between x0 x1 p) ∧ (SpanFits x0 len ↔ x1 + 1 < 2 ^ 31)) ∧
    (¬x0 ≤ x1 → (Span x0 len p ↔ x1 - 1 ≤ p ∧ p < x0) ∧
      (SpanFits x0 len ↔ -2 ^ 31 ≤ x1 - 1 ∧ -2 ^ 31 < x1 - x0 - 1)) := by
  unfold Span SpanFits Between
  refine ⟨fun forward => ?_, fun backward => ?_⟩
  · have positive : ¬len < 0 := by have := right forward; omega
    rw [if_neg positive, if_neg positive, right forward]
    constructor <;> omega
  · have negative : len < 0 := by have := left backward; omega
    rw [if_pos negative, if_pos negative, left backward]
    constructor <;> omega

/-- A panel without a picture. -/
def Canvas.blank (c : Canvas) : Canvas := { c with buf := c.buf.map fun buf => List.replicate buf.length 0 }

theorem blank_attached (attached : c.Attached) : c.blank.Attached := by
  obtain ⟨buf, is, room, small⟩ := attached.some_
  refine ⟨⟨List.replicate buf.length 0, ?_, ?_, ?_⟩, attached.w_nonneg, attached.w_lt, attached.h_nonneg, attached.h_lt⟩
  · rw [Canvas.blank, is]
    rfl
  · rw [List.length_replicate]
    exact room
  · rw [List.length_replicate]
    exact small

theorem blank_get (attached : c.Attached) (on : c.On x y) : c.blank.get x y = false := by
  obtain ⟨buf, is, -⟩ := attached.some_
  have isBlank : c.blank.buf = some (List.replicate buf.length 0) := by
    rw [Canvas.blank, is]
    rfl
  rw [get_eq_bit isBlank on.1 on.2]
  have zero : (List.replicate buf.length (0 : UInt8)).getD (y / 8 * c.blank.w + x).toNat 0 = 0 := by
    rw [List.getD_eq_getElem?_getD, List.getElem?_replicate]
    split
    · rfl
    · rfl
  rw [zero, bit]
  exact Nat.zero_testBit _

/-- An axis of `n` pixels: `place` puts it on the panel, which has it when it is `shown`, and `run` draws a length of it
from `a` on, towards `b`. -/
structure Axis (c : Canvas) (a b n : Int) (shown : Prop) (place : Int → Int × Int) (run : Canvas → Int → Option Canvas)
    (shape : Int → Int → Int → Prop) : Prop where
  on : ∀ p, c.On (place p).1 (place p).2 ↔ shown ∧ 0 ≤ p ∧ p < n
  box : ∀ x y, Between (place a).1 (place b).1 x ∧ Between (place a).2 (place b).2 y ↔
    ∃ p, Between a b p ∧ place p = (x, y)
  distinct : Function.Injective place
  shape_iff : ∀ len x y, shape len x y ↔ ∃ p, Span a len p ∧ place p = (x, y)
  draws : ∀ c₁ : Canvas, c₁.Attached → c₁.w = c.w → c₁.h = c.h → ∀ len, InInt len → ¬shown ∨ SpanFits a len →
    ∃ c', run c₁ len = some c' ∧ c₁.Draws c' (shape len) fun _ => true
  fails : ∀ c₁ : Canvas, c₁.Attached → c₁.w = c.w → c₁.h = c.h → ∀ len, InInt len → ¬(¬shown ∨ SpanFits a len) →
    run c₁ len = none

section Axis

variable {a b n : Int} {shown : Prop} {place : Int → Int × Int} {run : Canvas → Int → Option Canvas}
  {shape : Int → Int → Int → Prop}

theorem Axis.shape_place (axis : Axis c a b n shown place run shape) {p : Int} :
    shape len (place p).1 (place p).2 ↔ Span a len p := by
  rw [axis.shape_iff]
  exact ⟨fun ⟨q, inSpan, same⟩ => axis.distinct same ▸ inSpan, fun inSpan => ⟨p, inSpan, rfl⟩⟩

theorem Axis.box_place (axis : Axis c a b n shown place run shape) {p : Int} :
    Between (place a).1 (place b).1 (place p).1 ∧ Between (place a).2 (place b).2 (place p).2 ↔ Between a b p := by
  rw [axis.box]
  exact ⟨fun ⟨q, inside, same⟩ => axis.distinct same ▸ inside, fun inside => ⟨p, inside, rfl⟩⟩

/-- A run that joins its ends on a dark panel fits. -/
theorem Axis.fits (axis : Axis c a b n shown place run shape) (attached : c.Attached)
    (ran : (runLen a b).bind (run c.blank) = some c')
    (ends : Joins c.blank c' (place a).1 (place a).2 (place b).1 (place b).2) : RunFits n a b shown := by
  have dark : ∀ p, shown → 0 ≤ p ∧ p < n → c.blank.get (place p).1 (place p).2 = false :=
    fun p inPanel inAxis => blank_get attached ((axis.on p).mpr ⟨inPanel, inAxis⟩)
  by_cases fits : if a ≤ b then b - a + 1 < 2 ^ 31 else -2 ^ 31 ≤ b - a - 1
  case neg =>
    rw [runLen_none fits] at ran
    cases ran
  obtain ⟨len, isLen, isInt, right, left⟩ := runLen_eq fits
  rw [isLen, Option.bind_some] at ran
  have spans : ¬shown ∨ SpanFits a len := by
    by_contra far
    rw [axis.fails c.blank (blank_attached attached) rfl rfl len isInt far] at ran
    cases ran
  obtain ⟨c'', ran', drawn⟩ := axis.draws c.blank (blank_attached attached) rfl rfl len isInt spans
  rw [ran] at ran'
  cases ran'
  unfold RunFits
  split
  · rename_i up
    rw [if_pos up] at fits
    exact ⟨fits, fun s => ((span_run right left (p := a)).1 up).2.mp (spans.resolve_left (not_not.mpr s))⟩
  · rename_i down
    rw [if_neg down] at fits
    have span := fun p => ((span_run right left (p := p)).2 down)
    refine ⟨fits, fun s => ⟨(span a).2.mp (spans.resolve_left (not_not.mpr s)), fun inAxis => ?_, fun inAxis => ?_⟩⟩
    · have on := (axis.on a).mpr ⟨s, inAxis⟩
      have outside : ¬shape len (place a).1 (place a).2 := fun inShape => by
        have := (span a).1.mp (axis.shape_place.mp inShape)
        omega
      have lit := ends.first on
      rw [(drawn.get_eq on).2 outside, dark a s inAxis] at lit
      cases lit
    · have on := (axis.on (b - 1)).mpr ⟨s, inAxis⟩
      have outside : ¬Between a b (b - 1) := by
        unfold Between
        omega
      have lit := (drawn.get_eq on).1 (axis.shape_place.mpr ((span (b - 1)).1.mpr (by omega)))
      rw [ends.inside _ _ on fun inside => outside (axis.box_place.mp inside), dark (b - 1) s inAxis] at lit
      cases lit

theorem Axis.joins_up (axis : Axis c a b n shown place run shape) (fits : RunFits n a b shown) (up : a ≤ b)
    {c₁ : Canvas} (attached : c₁.Attached) (sameW : c₁.w = c.w) (sameH : c₁.h = c.h) :
    ∃ c', (runLen a b).bind (run c₁) = some c' ∧ Joins c₁ c' (place a).1 (place a).2 (place b).1 (place b).2 := by
  rw [RunFits, if_pos up] at fits
  obtain ⟨len, isLen, isInt, right, left⟩ := @runLen_eq a b (by rw [if_pos up]; exact fits.1)
  have span := fun p => ((span_run right left (p := p)).1 up)
  obtain ⟨c', ran, drawn⟩ := axis.draws c₁ attached sameW sameH len isInt (by
    by_cases s : shown
    · exact .inr ((span a).2.mpr (fits.2 s))
    · exact .inl s)
  refine ⟨c', by rw [isLen, Option.bind_some, ran], fun on => ?_, fun on => ?_, fun x y on out => ?_,
    fun _ x y on inX inY => ?_⟩
  · exact (drawn.get_eq on).1 (axis.shape_place.mpr ((span a).1.mpr (by unfold Between; omega)))
  · exact (drawn.get_eq on).1 (axis.shape_place.mpr ((span b).1.mpr (by unfold Between; omega)))
  · refine (drawn.get_eq on).2 fun inShape => out ?_
    obtain ⟨p, inSpan, same⟩ := (axis.shape_iff len x y).mp inShape
    exact (axis.box x y).mpr ⟨p, (span p).1.mp inSpan, same⟩
  · obtain ⟨p, inside, same⟩ := (axis.box x y).mp ⟨inX, inY⟩
    exact (drawn.get_eq on).1 ((axis.shape_iff len x y).mpr ⟨p, (span p).1.mpr inside, same⟩)

theorem Axis.joins_down (axis : Axis c a b n shown place run shape) (fits : RunFits n a b shown) (down : ¬a ≤ b)
    {c₁ : Canvas} (attached : c₁.Attached) (sameW : c₁.w = c.w) (sameH : c₁.h = c.h) :
    ∃ c', (runLen a b).bind (run c₁) = some c' ∧ Joins c₁ c' (place a).1 (place a).2 (place b).1 (place b).2 := by
  rw [RunFits, if_neg down] at fits
  obtain ⟨len, isLen, isInt, right, left⟩ := @runLen_eq a b (by rw [if_neg down]; exact fits.1)
  have span := fun p => ((span_run right left (p := p)).2 down)
  obtain ⟨c', ran, drawn⟩ := axis.draws c₁ attached sameW sameH len isInt (by
    by_cases s : shown
    · exact .inr ((span a).2.mpr (fits.2 s).1)
    · exact .inl s)
  -- neither the first place nor the one behind the last is on the panel
  have off : ∀ p, c₁.On (place p).1 (place p).2 → p ≠ a ∧ p ≠ b - 1 := fun p on => by
    rw [Canvas.On, sameW, sameH] at on
    obtain ⟨s, inAxis⟩ := (axis.on p).mp on
    obtain ⟨-, notFirst, notBehind⟩ := fits.2 s
    exact ⟨fun same => notFirst (same ▸ inAxis), fun same => notBehind (same ▸ inAxis)⟩
  refine ⟨c', by rw [isLen, Option.bind_some, ran], fun on => absurd rfl (off a on).1, fun on => ?_,
    fun x y on out => ?_, fun _ x y on inX inY => ?_⟩
  · exact (drawn.get_eq on).1 (axis.shape_place.mpr ((span b).1.mpr (by omega)))
  · refine (drawn.get_eq on).2 fun inShape => out ?_
    obtain ⟨p, inSpan, same⟩ := (axis.shape_iff len x y).mp inShape
    have := off p (by rw [same]; exact on)
    have := (span p).1.mp inSpan
    exact (axis.box x y).mpr ⟨p, by unfold Between; omega, same⟩
  · obtain ⟨p, inside, same⟩ := (axis.box x y).mp ⟨inX, inY⟩
    have := off p (by rw [same]; exact on)
    unfold Between at inside
    exact (drawn.get_eq on).1 ((axis.shape_iff len x y).mpr ⟨p, (span p).1.mpr (by omega), same⟩)

/-- A run along an axis joins its ends on every picture exactly when it fits. -/
theorem Axis.joins_iff (axis : Axis c a b n shown place run shape) (attached : c.Attached) :
    (∀ c₁ : Canvas, c₁.Attached → c₁.w = c.w → c₁.h = c.h → ∃ c', (runLen a b).bind (run c₁) = some c' ∧
      Joins c₁ c' (place a).1 (place a).2 (place b).1 (place b).2) ↔ RunFits n a b shown := by
  constructor
  · intro joins
    obtain ⟨c', ran, ends⟩ := joins c.blank (blank_attached attached) rfl rfl
    exact axis.fits attached ran ends
  · intro fits c₁ attached₁ sameW sameH
    by_cases up : a ≤ b
    · exact axis.joins_up fits up attached₁ sameW sameH
    · exact axis.joins_down fits up attached₁ sameW sameH

end Axis

theorem off_or {v n : Int} {P : Prop} : v < 0 ∨ n ≤ v ∨ P ↔ ¬(0 ≤ v ∧ v < n) ∨ P := by
  rw [← or_assoc]
  exact or_congr_left (by omega)

theorem row_axis (isX : InInt x0) : Axis c x0 x1 c.w (0 ≤ y0 ∧ y0 < c.h) (fun p => (p, y0))
    (fun c₁ len => c₁.hline x0 y0 len true) fun len => OnRow x0 y0 len where
  on p := and_comm
  box x y := by
    constructor
    · rintro ⟨inX, inY⟩
      unfold Between at inY
      exact ⟨x, inX, by rw [show y = y0 by omega]⟩
    · rintro ⟨p, inside, same⟩
      cases same
      exact ⟨inside, by unfold Between; omega⟩
  distinct p q same := congrArg Prod.fst same
  shape_iff len x y := by
    constructor
    · rintro ⟨row, inSpan⟩
      exact ⟨x, inSpan, by rw [row]⟩
    · rintro ⟨p, inSpan, same⟩
      cases same
      exact ⟨rfl, inSpan⟩
  draws c₁ attached _ sameH len isLen fits := hline_draws attached isX isLen (off_or.mpr (sameH ▸ fits))
  fails c₁ attached _ sameH len isLen no := hline_none attached isX isLen (sameH ▸ off_or.not.mpr no)

theorem column_axis (isY : InInt y0) : Axis c y0 y1 c.h (0 ≤ x0 ∧ x0 < c.w) (fun p => (x0, p))
    (fun c₁ len => c₁.vline x0 y0 len true) fun len => OnColumn x0 y0 len where
  on p := Iff.rfl
  box x y := by
    constructor
    · rintro ⟨inX, inY⟩
      unfold Between at inX
      exact ⟨y, inY, by rw [show x = x0 by omega]⟩
    · rintro ⟨p, inside, same⟩
      cases same
      exact ⟨by unfold Between; omega, inside⟩
  distinct p q same := congrArg Prod.snd same
  shape_iff len x y := by
    constructor
    · rintro ⟨column, inSpan⟩
      exact ⟨y, inSpan, by rw [column]⟩
    · rintro ⟨p, inSpan, same⟩
      cases same
      exact ⟨rfl, inSpan⟩
  draws c₁ attached sameW _ len isLen fits := vline_draws attached isY isLen (off_or.mpr (sameW ▸ fits))
  fails c₁ attached sameW _ len isLen no := vline_none attached isY isLen (sameW ▸ off_or.not.mpr no)

theorem joins_horizontal (attached : c.Attached) (isX : InInt x0) :
    LineJoins c x0 y0 x1 y0 ↔ RunFits c.w x0 x1 (0 ≤ y0 ∧ y0 < c.h) := by
  rw [← (row_axis isX).joins_iff attached]
  apply forall_congr'
  intro c₁
  rw [Canvas.line, if_pos rfl]

theorem joins_vertical (attached : c.Attached) (isY : InInt y0) (distinct : y0 ≠ y1) :
    LineJoins c x0 y0 x0 y1 ↔ RunFits c.h y0 y1 (0 ≤ x0 ∧ x0 < c.w) := by
  rw [← (column_axis isY).joins_iff attached]
  apply forall_congr'
  intro c₁
  rw [Canvas.line, if_neg distinct, if_pos rfl]

/-! ### Along a slope -/

/-- How far two places are from each other. -/
def gap (a b : Int) : Int := max (b - a) (a - b)

/-- `p` steps of `s` lead from `a` to `b`. -/
def Leads (s a b p : Int) : Prop := s = 1 ∧ b - a = p ∨ s = -1 ∧ a - b = p

/-- The error of Bresenham's with `p` columns and `q` rows to go. -/
def errAt (dx dy p q : Int) : Int := dx - dy + p * dy - q * dx

/-- With `p` columns and `q` rows to go the place is, on the shorter axis, the nearest one to the slope. -/
def Near (dx dy p q : Int) : Prop :=
  if dy ≤ dx then -dx ≤ 2 * (p * dy) - 2 * (q * dx) ∧ 2 * (p * dy) - 2 * (q * dx) < dx
  else -dy ≤ 2 * (q * dx) - 2 * (p * dy) ∧ 2 * (q * dx) - 2 * (p * dy) < dy

/-- The steps to go on the longer axis. -/
def toGo (dx dy p q : Int) : Int := if dy ≤ dx then p else q

/-- The sums of a pass are in 32 bits. -/
def PassFits (dx dy p q : Int) : Prop :=
  InInt (errAt dx dy p q * 2) ∧ (-dy < errAt dx dy p q * 2 → InInt (errAt dx dy p q - dy))

/-- The distances of a slope are in 32 bits, and so are the sums at each of its places. -/
def SlopeFits (dx dy : Int) : Prop :=
  (dx < 2 ^ 31 ∧ dy < 2 ^ 31) ∧
    ∀ p q, 0 ≤ p → p ≤ dx → 0 ≤ q → q ≤ dy → p ≠ 0 ∨ q ≠ 0 → Near dx dy p q → PassFits dx dy p q

variable {dx dy sx sy p q p' q' err : Int}

theorem near_next (positive : 0 < dx ∧ 0 < dy) (low : 0 ≤ p ∧ 0 ≤ q) (more : p ≠ 0 ∨ q ≠ 0) (near : Near dx dy p q)
    (isP : p' = if -dy < errAt dx dy p q * 2 then p - 1 else p)
    (isQ : q' = if errAt dx dy p q * 2 < dx then q - 1 else q) :
    (0 ≤ p' ∧ 0 ≤ q') ∧ Near dx dy p' q' ∧ toGo dx dy p' q' = toGo dx dy p q - 1 := by
  have before : (p - 1) * dy = p * dy - dy := by ring
  have above : (q - 1) * dx = q * dx - dx := by ring
  have someP : 1 ≤ p → dy ≤ p * dy := fun one => le_mul_of_one_le_left positive.2.le one
  have someQ : 1 ≤ q → dx ≤ q * dx := fun one => le_mul_of_one_le_left positive.1.le one
  have noP : p = 0 → p * dy = 0 := fun zero => by rw [zero, Int.zero_mul]
  have noQ : q = 0 → q * dx = 0 := fun zero => by rw [zero, Int.zero_mul]
  -- on a slope of one half, both axes take a step
  have even : dx = dy → -dx ≤ 2 * (p * dy) - 2 * (q * dx) → q * dx ≤ p * dy := fun same least => by
    subst same
    by_contra less
    have : p < q := lt_of_mul_lt_mul_right (not_le.mp less) positive.1.le
    have : (p + 1) * dx ≤ q * dx := mul_le_mul_of_nonneg_right (by omega) positive.1.le
    have : (p + 1) * dx = p * dx + dx := by ring
    omega
  unfold Near at near ⊢
  unfold toGo
  unfold errAt at isP isQ
  by_cases wide : dy ≤ dx
  · rw [if_pos wide] at near
    rw [if_pos wide, if_pos wide, if_pos wide]
    have column : p ≠ 0 := fun zero => by
      have := noP zero
      have := someQ
      omega
    rw [if_pos (by by_cases same : dx = dy <;> [have := even same near.1; skip] <;> omega)] at isP
    subst isP
    rw [before]
    split at isQ
    · subst isQ
      rw [above]
      omega
    · subst isQ
      omega
  · rw [if_neg wide] at near
    rw [if_neg wide, if_neg wide, if_neg wide]
    have row : q ≠ 0 := fun zero => by
      have := noQ zero
      have := someP
      omega
    rw [if_pos (by omega)] at isQ
    subst isQ
    rw [above]
    split at isP
    · subst isP
      rw [before]
      omega
    · subst isP
      omega

/-- One place is nearest for each number of steps to go. -/
theorem near_unique (positive : 0 < dx ∧ 0 < dy) (near : Near dx dy p q) (near' : Near dx dy p' q')
    (same : toGo dx dy p q = toGo dx dy p' q') : p = p' ∧ q = q' := by
  have apart : ∀ {d a b : Int}, 0 < d → a < b → a * d + d ≤ b * d := fun {d a b} high less => by
    have : (a + 1) * d ≤ b * d := mul_le_mul_of_nonneg_right (by omega) high.le
    have : (a + 1) * d = a * d + d := by ring
    omega
  unfold Near at near near'
  unfold toGo at same
  by_cases wide : dy ≤ dx
  · rw [if_pos wide] at near near'
    rw [if_pos wide, if_pos wide] at same
    subst same
    refine ⟨rfl, ?_⟩
    rcases lt_trichotomy q q' with less | same | less
    · have := apart positive.1 less
      omega
    · exact same
    · have := apart positive.1 less
      omega
  · rw [if_neg wide] at near near'
    rw [if_neg wide, if_neg wide] at same
    subst same
    refine ⟨?_, rfl⟩
    rcases lt_trichotomy p p' with less | same | less
    · have := apart positive.2 less
      omega
    · exact same
    · have := apart positive.2 less
      omega

theorem near_zero (positive : 0 < dx ∧ 0 < dy) : Near dx dy 0 0 := by
  unfold Near
  split <;> omega

theorem near_start (positive : 0 < dx ∧ 0 < dy) : Near dx dy dx dy := by
  have : dy * dx = dx * dy := Int.mul_comm dy dx
  unfold Near
  split <;> omega

theorem int_some {v r : Int} (is : int v = some r) : InInt v ∧ r = v := by
  by_cases fits : InInt v
  · rw [int_eq_some fits] at is
    exact ⟨fits, (Option.some.inj is).symm⟩
  · rw [int_eq_none fits] at is
    cases is

theorem stepped_iff {take : Bool} {change a by_ : Int} {r : Int × Int} : stepped take err change a by_ = some r ↔
    (take = true → InInt (err + change) ∧ InInt (a + by_)) ∧
      r = if take = true then (err + change, a + by_) else (err, a) := by
  unfold stepped
  cases take with
  | false => simp [eq_comm]
  | true =>
    simp only [if_true, Option.bind_eq_some_iff, Option.map_eq_some_iff]
    constructor
    · rintro ⟨e, isE, b, isB, rfl⟩
      obtain ⟨fitsE, rfl⟩ := int_some isE
      obtain ⟨fitsB, rfl⟩ := int_some isB
      exact ⟨fun _ => ⟨fitsE, fitsB⟩, rfl⟩
    · rintro ⟨fits, rfl⟩
      exact ⟨_, int_eq_some (fits trivial).1, _, int_eq_some (fits trivial).2, rfl⟩

theorem pass_next (leadsX : Leads sx x x1 p) (leadsY : Leads sy y y1 q) (isErr : err = errAt dx dy p q)
    (isP : p' = if -dy < err * 2 then p - 1 else p) (isQ : q' = if err * 2 < dx then q - 1 else q) :
    Leads sx (if -dy < err * 2 then x + sx else x) x1 p' ∧ Leads sy (if err * 2 < dx then y + sy else y) y1 q' ∧
      (if err * 2 < dx then (if -dy < err * 2 then err + -dy else err) + dx
        else if -dy < err * 2 then err + -dy else err) = errAt dx dy p' q' := by
  have before : (p - 1) * dy = p * dy - dy := by ring
  have above : (q - 1) * dx = q * dx - dx := by ring
  unfold Leads at leadsX leadsY ⊢
  unfold errAt at isErr ⊢
  refine ⟨?_, ?_, ?_⟩
  · split at isP <;> omega
  · split at isQ <;> omega
  · split at isP <;> split at isQ <;> subst isP isQ <;> omega

/-- From a place of the slope whose sums are in 32 bits, the loop lights the places up to the end of the line. -/
theorem lineLoop_draws (lit : Bool) (attached : c.Attached) (positive : 0 < dx ∧ 0 < dy) (fits : SlopeFits dx dy)
    (isX1 : InInt x1) (isY1 : InInt y1) {fuel : Nat} (near : Near dx dy p q) (low : 0 ≤ p ∧ 0 ≤ q) (high : p ≤ dx ∧ q ≤ dy)
    (leadsX : Leads sx x x1 p) (leadsY : Leads sy y y1 q) (isX : InInt x) (isY : InInt y)
    (isErr : err = errAt dx dy p q) (enough : toGo dx dy p q < fuel) :
    ∃ c' S, Canvas.lineLoop lit x1 y1 dx dy sx sy fuel x y err c = some c' ∧ c.Draws c' S (fun _ => lit) ∧
      S x y ∧ S x1 y1 ∧ ∀ a b, S a b → Between x x1 a ∧ Between y y1 b := by
  induction fuel generalizing c p q x y err with
  | zero =>
    unfold toGo at enough
    split at enough <;> omega
  | succ fuel ih =>
    obtain ⟨c₁, shown, drawn⟩ := @pixel_draws c x y lit attached
    rw [Canvas.lineLoop, shown, Option.bind_some]
    unfold Leads at leadsX leadsY
    by_cases done : p = 0 ∧ q = 0
    · rw [if_pos ⟨by omega, by omega⟩]
      refine ⟨c₁, _, rfl, drawn, ⟨rfl, rfl⟩, ⟨by omega, by omega⟩, fun a b on => ?_⟩
      unfold Between
      omega
    rw [if_neg (by omega)]
    obtain ⟨isE2, isLess⟩ := fits.2 p q low.1 high.1 low.2 high.2 (by omega) near
    rw [← isErr] at isE2 isLess
    obtain ⟨p', isP⟩ : ∃ p', p' = if -dy < err * 2 then p - 1 else p := ⟨_, rfl⟩
    obtain ⟨q', isQ⟩ : ∃ q', q' = if err * 2 < dx then q - 1 else q := ⟨_, rfl⟩
    obtain ⟨low', near', fewer⟩ := near_next positive low (by omega) near (isErr ▸ isP) (isErr ▸ isQ)
    obtain ⟨leadsX', leadsY', isErr'⟩ := pass_next leadsX leadsY isErr isP isQ
    have high' : p' ≤ dx ∧ q' ≤ dy := by constructor <;> split_ifs at isP isQ <;> omega
    -- the error of the next place is in 32 bits as its double is, or as the last one is the first
    have isNext : InInt (errAt dx dy p' q') := by
      have small := fits.1
      by_cases last : p' = 0 ∧ q' = 0
      · rw [errAt, last.1, last.2]
        unfold InInt
        omega
      · have := (fits.2 p' q' low'.1 high'.1 low'.2 high'.2 (by omega) near').1
        unfold InInt at this ⊢
        omega
    have farX := leadsX'
    have farY := leadsY'
    unfold Leads at farX farY
    unfold InInt at isX isY isX1 isY1
    have column := (@stepped_iff err (decide (-dy < err * 2)) (-dy) x sx _).mpr
      ⟨fun take => ⟨isLess (of_decide_eq_true take), by
        rw [if_pos (of_decide_eq_true take)] at farX
        unfold InInt
        omega⟩, rfl⟩
    simp only [decide_eq_true_eq] at column
    have row := (@stepped_iff (if -dy < err * 2 then (err + -dy, x + sx) else (err, x)).1 (decide (err * 2 < dx)) dx y
      sy _).mpr ⟨fun take => by
        rw [if_pos (of_decide_eq_true take)] at farY isErr'
        rw [apply_ite Prod.fst, isErr']
        refine ⟨isNext, ?_⟩
        unfold InInt
        omega, rfl⟩
    simp only [decide_eq_true_eq] at row
    rw [int_eq_some isE2, Option.bind_some, column, Option.bind_some, row, Option.bind_some]
    simp only [apply_ite Prod.fst, apply_ite Prod.snd]
    rw [isErr']
    obtain ⟨c', T, ran, drawn', first, last, inside⟩ := ih (drawn.attached attached) near' low' high'
      leadsX' leadsY' (by unfold InInt; omega) (by unfold InInt; omega) rfl (by push_cast at enough; omega)
    refine ⟨c', _, ran, drawn.trans drawn' (.inl fun _ => rfl), .inl ⟨rfl, rfl⟩, .inr last, fun a b on => ?_⟩
    rcases on with on | on
    · unfold Between
      omega
    · have := inside a b on
      unfold Between at this ⊢
      split_ifs at this farX farY <;> omega

/-- A loop that ends had the sums at all its places in 32 bits. -/
theorem lineLoop_fits (attached : c.Attached) (positive : 0 < dx ∧ 0 < dy) {fuel : Nat} (near : Near dx dy p q)
    (low : 0 ≤ p ∧ 0 ≤ q) (leadsX : Leads sx x x1 p) (leadsY : Leads sy y y1 q) (isErr : err = errAt dx dy p q)
    (ran : Canvas.lineLoop lit x1 y1 dx dy sx sy fuel x y err c = some c') {a b : Int} (least : 0 ≤ a ∧ 0 ≤ b)
    (more : a ≠ 0 ∨ b ≠ 0) (nearest : Near dx dy a b) (ahead : toGo dx dy a b ≤ toGo dx dy p q) :
    PassFits dx dy a b := by
  induction fuel generalizing c p q x y err with
  | zero => cases ran
  | succ fuel ih =>
    obtain ⟨c₁, shown, drawn⟩ := @pixel_draws c x y lit attached
    rw [Canvas.lineLoop, shown, Option.bind_some] at ran
    by_cases done : p = 0 ∧ q = 0
    · rw [done.1, done.2] at ahead
      have none_ : toGo dx dy a b = toGo dx dy 0 0 := by
        unfold toGo at ahead ⊢
        split at ahead <;> omega
      have := near_unique positive nearest (near_zero positive) none_
      omega
    rw [if_neg (by unfold Leads at leadsX leadsY; omega)] at ran
    obtain ⟨e2, isE2, ran⟩ := Option.bind_eq_some_iff.mp ran
    obtain ⟨fitsE2, rfl⟩ := int_some isE2
    obtain ⟨r, isR, ran⟩ := Option.bind_eq_some_iff.mp ran
    obtain ⟨fitsX, rfl⟩ := stepped_iff.mp isR
    obtain ⟨s, isS, ran⟩ := Option.bind_eq_some_iff.mp ran
    obtain ⟨-, rfl⟩ := stepped_iff.mp isS
    simp only [decide_eq_true_eq, apply_ite Prod.fst, apply_ite Prod.snd] at ran fitsX
    obtain ⟨p', isP⟩ : ∃ p', p' = if -dy < err * 2 then p - 1 else p := ⟨_, rfl⟩
    obtain ⟨q', isQ⟩ : ∃ q', q' = if err * 2 < dx then q - 1 else q := ⟨_, rfl⟩
    obtain ⟨low', near', fewer⟩ := near_next positive low (by omega) near (isErr ▸ isP) (isErr ▸ isQ)
    obtain ⟨leadsX', leadsY', isErr'⟩ := pass_next leadsX leadsY isErr isP isQ
    by_cases here : toGo dx dy a b = toGo dx dy p q
    · obtain ⟨rfl, rfl⟩ := near_unique positive nearest near here
      rw [PassFits, ← isErr]
      exact ⟨fitsE2, fun take => (fitsX take).1⟩
    · exact ih (drawn.attached attached) near' low' leadsX' leadsY' isErr' ran (by omega)

/-- The condition under which `line` joins its ends. -/
def LineFits (c : Canvas) (x0 y0 x1 y1 : Int) : Prop :=
  if y0 = y1 then RunFits c.w x0 x1 (0 ≤ y0 ∧ y0 < c.h)
  else if x0 = x1 then RunFits c.h y0 y1 (0 ≤ x0 ∧ x0 < c.w)
  else SlopeFits (gap x0 x1) (gap y0 y1)

theorem distance_iff {a b d : Int} : distance a b = some d ↔ gap a b < 2 ^ 31 ∧ d = gap a b := by
  unfold distance gap
  constructor
  · intro is
    obtain ⟨v, isV, is⟩ := Option.bind_eq_some_iff.mp is
    obtain ⟨fits, rfl⟩ := int_some isV
    unfold InInt at fits
    split at is
    · obtain ⟨fits', rfl⟩ := int_some is
      unfold InInt at fits'
      omega
    · cases is
      omega
  · rintro ⟨fits, rfl⟩
    rw [int_eq_some (by omega), Option.bind_some]
    split
    · rw [int_eq_some (by omega)]
      congr 1
      omega
    · congr 1
      omega

/-- Every slope of less than a third of the range has its sums in 32 bits. -/
theorem slopeFits_of_small (positive : 0 < dx ∧ 0 < dy) (smallX : 3 * dx ≤ 2 ^ 31) (smallY : 3 * dy ≤ 2 ^ 31) :
    SlopeFits dx dy := by
  refine ⟨⟨by omega, by omega⟩, fun p q _ _ _ _ _ near => ?_⟩
  unfold Near at near
  unfold PassFits InInt errAt
  split at near <;> omega

theorem joins_slope (attached : c.Attached) (isX : InInt x0) (isY : InInt y0) (isX1 : InInt x1) (isY1 : InInt y1)
    (apartY : y0 ≠ y1) (apartX : x0 ≠ x1) : LineJoins c x0 y0 x1 y1 ↔ SlopeFits (gap x0 x1) (gap y0 y1) := by
  have positive : 0 < gap x0 x1 ∧ 0 < gap y0 y1 := by unfold gap; omega
  have leadsX : Leads (if x0 < x1 then 1 else -1) x0 x1 (gap x0 x1) := by
    unfold Leads gap
    split <;> omega
  have leadsY : Leads (if y0 < y1 then 1 else -1) y0 y1 (gap y0 y1) := by
    unfold Leads gap
    split <;> omega
  have isErr : gap x0 x1 - gap y0 y1 = errAt (gap x0 x1) (gap y0 y1) (gap x0 x1) (gap y0 y1) := by
    rw [errAt]
    ring
  constructor
  · intro joins
    obtain ⟨c', ran, -⟩ := joins c attached rfl rfl
    rw [Canvas.line, if_neg apartY, if_neg apartX] at ran
    obtain ⟨d, isD, ran⟩ := Option.bind_eq_some_iff.mp ran
    obtain ⟨smallX, rfl⟩ := distance_iff.mp isD
    obtain ⟨d, isD, ran⟩ := Option.bind_eq_some_iff.mp ran
    obtain ⟨smallY, rfl⟩ := distance_iff.mp isD
    obtain ⟨e, isE, ran⟩ := Option.bind_eq_some_iff.mp ran
    obtain ⟨-, rfl⟩ := int_some isE
    refine ⟨⟨smallX, smallY⟩, fun p q lowP highP lowQ highQ more near => ?_⟩
    refine lineLoop_fits attached positive (near_start positive) ⟨by omega, by omega⟩ leadsX leadsY isErr ran
      ⟨lowP, lowQ⟩ more near ?_
    unfold toGo
    split <;> omega
  · intro fits c₁ attached₁ _ _
    obtain ⟨c', S, ran, drawn, first, last, inside⟩ := lineLoop_draws true attached₁ positive fits isX1
      isY1 (near_start positive) ⟨by omega, by omega⟩ ⟨le_refl _, le_refl _⟩ leadsX leadsY isX isY isErr
      (show _ < ((gap x0 x1 + gap y0 y1 + 1).toNat : Int) by unfold toGo; split <;> omega)
    refine ⟨c', ?_, fun on => (drawn.get_eq on).1 first, fun on => (drawn.get_eq on).1 last,
      fun x y on out => (drawn.get_eq on).2 fun inS => out (inside x y inS), fun axis => by omega⟩
    have small := fits.1
    rw [Canvas.line, if_neg apartY, if_neg apartX, distance_iff.mpr ⟨small.1, rfl⟩, Option.bind_some,
      distance_iff.mpr ⟨small.2, rfl⟩, Option.bind_some, int_eq_some (by omega), Option.bind_some, ran]

/-- `line` joins its ends on every picture of a panel exactly when it fits: the lines to the left or upwards along an
axis are drawn a place too far. -/
theorem line_iff (attached : c.Attached) (isX : InInt x0) (isY : InInt y0) (isX1 : InInt x1) (isY1 : InInt y1) :
    LineJoins c x0 y0 x1 y1 ↔ LineFits c x0 y0 x1 y1 := by
  unfold LineFits
  split
  · rename_i row
    subst row
    exact joins_horizontal attached isX
  · rename_i apartY
    split
    · rename_i column
      subst column
      exact joins_vertical attached isY apartY
    · rename_i apartX
      exact joins_slope attached isX isY isX1 isY1 apartY apartX

theorem line_iff_inside : LineJoins smallPanel 1 3 5 3 ∧ LineJoins smallPanel 6 5 0 1 := by
  constructor
  · apply (line_iff smallPanel_attached (by decide) (by decide) (by decide) (by decide)).mpr
    rw [LineFits, if_pos rfl, RunFits, if_pos (by decide)]
    exact ⟨by decide, fun _ => by decide⟩
  · apply (line_iff smallPanel_attached (by decide) (by decide) (by decide) (by decide)).mpr
    rw [LineFits, if_neg (by decide), if_neg (by decide)]
    exact slopeFits_of_small ⟨by decide, by decide⟩ (by decide) (by decide)

theorem not_all_lines : ¬∀ (c : Canvas) (x0 y0 x1 y1 : Int), c.Attached → InInt x0 → InInt y0 → InInt x1 → InInt y1 →
    LineJoins c x0 y0 x1 y1 := by
  intro all
  obtain ⟨c', ran, joins⟩ := all smallPanel 5 0 2 0 smallPanel_attached (by decide) (by decide) (by decide)
    (by decide) smallPanel smallPanel_attached rfl rfl
  have dark : (smallPanel.line 5 0 2 0 true).map (fun c => c.get 5 0) = some false := by decide +kernel
  rw [ran, Option.map_some, joins.first ⟨by decide, by decide⟩] at dark
  cases dark

end RPCortex.Nova
