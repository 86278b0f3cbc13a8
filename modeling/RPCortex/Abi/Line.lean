import RPCortex.Abi.Framebuf
import RPCortex.Nova.Line

/-! `fb_line` of `framebuf.cpp`.  What it draws does not depend on what is there, so its places are a list of their own. -/

namespace RPCortex.Abi

open Lib
open Nova (InInt errAt Near toGo near_next near_start Leads gap)

/-- The loop of `fb_line`: the places of its pixels, in so many passes. -/
def fbLineLoop (x1 y1 dx dy sx sy : Int32) : (passes : Nat) → (x0 y0 err : Int32) → Option (List (Int32 × Int32))
  | 0, _, _, _ => none
  | passes + 1, x0, y0, err =>
    if x0 = x1 ∧ y0 = y1 then some [(x0, y0)]
    else
      let e2 := err * 2
      let (err, nextX) := if e2 > -dy then (err - dy, x0 + sx) else (err, x0)
      let (err, nextY) := if e2 < dx then (err + dx, y0 + sy) else (err, y0)
      (fbLineLoop x1 y1 dx dy sx sy passes nextX nextY err).map ((x0, y0) :: ·)

/-- The places of `fb_line`. -/
def fbLinePlaces (passes : Nat) (x0 y0 x1 y1 : Int32) : Option (List (Int32 × Int32)) :=
  let dx := x1 - x0
  let dy := y1 - y0
  let sx := if dx < 0 then -1 else 1
  let sy := if dy < 0 then -1 else 1
  let dx := if dx < 0 then -dx else dx
  let dy := if dy < 0 then -dy else dy
  fbLineLoop x1 y1 dx dy sx sy passes x0 y0 (dx - dy)

/-- `p` is between `a` and `b`. -/
def Within (a b p : Int32) : Prop := min a.toInt b.toInt ≤ p.toInt ∧ p.toInt ≤ max a.toInt b.toInt

/-- The call ends, and its places are both ends and others in their box. -/
def Ends (x0 y0 x1 y1 : Int32) : Prop :=
  ∃ passes places, fbLinePlaces passes x0 y0 x1 y1 = some places ∧ (x0, y0) ∈ places ∧ (x1, y1) ∈ places ∧
    ∀ p ∈ places, Within x0 x1 p.1 ∧ Within y0 y1 p.2

/-! ### The steps to go -/

/-- The doubled error as the code has it. -/
def doubled (a b p q : Int) : Int := (errAt a b p q * 2).bmod (2 ^ 32)

/-- A pass that compares `e2` to the distances. -/
def passed (a b e2 : Int) (s : Int × Int) : Int × Int :=
  (if -b < e2 then s.1 - 1 else s.1, if e2 < a then s.2 - 1 else s.2)

/-- From `p` columns and `q` rows to go the loop comes to the end without passing it. -/
inductive Reaches (a b : Int) : Int × Int → Prop
  | done : Reaches a b (0, 0)
  | pass {s : Int × Int} (more : s ≠ (0, 0)) (low : 0 ≤ (passed a b (doubled a b s.1 s.2) s).1 ∧
      0 ≤ (passed a b (doubled a b s.1 s.2) s).2) (rest : Reaches a b (passed a b (doubled a b s.1 s.2) s)) : Reaches a b s

/-- A pass of the line that computes without bounds. -/
def exact_ (a b : Int) (s : Int × Int) : Int × Int :=
  if s = (0, 0) then s else passed a b (errAt a b s.1 s.2 * 2) s

/-- The doubled error has 32 bits at every place of the line that computes without bounds. -/
def SumsFit (a b : Int) (s : Int × Int) : Prop :=
  ∀ n : Nat, (exact_ a b)^[n] s ≠ (0, 0) → InInt (errAt a b ((exact_ a b)^[n] s).1 ((exact_ a b)^[n] s).2 * 2)

variable {a b p q : Int} {s : Int × Int}

theorem bmod_of_inInt {v : Int} (fits : InInt v) : v.bmod (2 ^ 32) = v := by
  unfold InInt at fits
  exact Int.bmod_eq_of_le (by omega) (by omega)

theorem SumsFit.next (fits : SumsFit a b s) : SumsFit a b (exact_ a b s) := fun n => fits (n + 1)

theorem SumsFit.passed_eq (fits : SumsFit a b s) (more : s ≠ (0, 0)) :
    passed a b (doubled a b s.1 s.2) s = exact_ a b s := by
  have here : InInt (errAt a b s.1 s.2 * 2) := fits 0 more
  rw [doubled, bmod_of_inInt here, exact_, if_neg more]

theorem some_ne (more : s ≠ (0, 0)) : s.1 ≠ 0 ∨ s.2 ≠ 0 := by
  by_contra none_
  rw [not_or, not_not, not_not] at none_
  exact more (Prod.ext none_.1 none_.2)

/-- A place of a slope from which no steps are to go is its end. -/
theorem near_end (positive : 0 < a ∧ 0 < b) (low : 0 ≤ s.1 ∧ 0 ≤ s.2) (near : Near a b s.1 s.2)
    (steps : toGo a b s.1 s.2 = 0) : s = (0, 0) := by
  have someP : 1 ≤ s.1 → b ≤ s.1 * b := fun one => le_mul_of_one_le_left positive.2.le one
  have someQ : 1 ≤ s.2 → a ≤ s.2 * a := fun one => le_mul_of_one_le_left positive.1.le one
  unfold Near at near
  unfold toGo at steps
  by_cases wide : b ≤ a
  · rw [if_pos wide] at near steps
    rw [steps, Int.zero_mul] at near
    exact Prod.ext steps (by omega)
  · rw [if_neg wide] at near steps
    rw [steps, Int.zero_mul] at near
    exact Prod.ext (by omega) steps

/-- Without bounds, every pass of a slope is a step to go less on its longer axis. -/
theorem reaches_near (positive : 0 < a ∧ 0 < b) (n : Nat) (steps : toGo a b s.1 s.2 = n) (low : 0 ≤ s.1 ∧ 0 ≤ s.2)
    (near : Near a b s.1 s.2) (fits : SumsFit a b s) : Reaches a b s := by
  induction n generalizing s with
  | zero => exact near_end positive low near steps ▸ .done
  | succ n ih =>
    by_cases more : s = (0, 0)
    · exact more ▸ .done
    · have next := near_next positive low (some_ne more) near rfl rfl
      have same := fits.passed_eq more
      have go : exact_ a b s = passed a b (errAt a b s.1 s.2 * 2) s := by rw [exact_, if_neg more]
      refine .pass more ?_ ?_
      · rw [same, go]
        exact next.1
      · rw [same]
        refine ih ?_ ?_ ?_ fits.next
        · rw [go]
          have := next.2.2
          simp only [passed]
          omega
        · rw [go]
          exact next.1
        · rw [go]
          exact next.2.1

theorem errAt_row (a p : Int) : errAt a 0 p 0 = a := by simp [errAt]

theorem errAt_column (b q : Int) : errAt 0 b 0 q = -b := by simp [errAt]

theorem reaches_row (positive : 0 < a) (n : Nat) (fits : SumsFit a 0 ((n : Int), 0)) : Reaches a 0 ((n : Int), 0) := by
  induction n with
  | zero => exact .done
  | succ n ih =>
    rw [Nat.cast_succ] at fits ⊢
    have more : ((n : Int) + 1, (0 : Int)) ≠ (0, 0) := fun same => by
      have := congrArg Prod.fst same
      dsimp only at this
      omega
    have go : exact_ a 0 ((n : Int) + 1, 0) = ((n : Int), 0) := by
      rw [exact_, if_neg more, errAt_row, passed, if_pos (by omega), if_neg (by omega)]
      simp
    have same := fits.passed_eq more
    refine .pass more ?_ ?_
    · rw [same, go]
      exact ⟨Int.natCast_nonneg n, Int.le_refl 0⟩
    · rw [same, go]
      exact ih (go ▸ fits.next)

theorem reaches_column (positive : 0 < b) (n : Nat) (fits : SumsFit 0 b (0, (n : Int))) : Reaches 0 b (0, (n : Int)) := by
  induction n with
  | zero => exact .done
  | succ n ih =>
    rw [Nat.cast_succ] at fits ⊢
    have more : ((0 : Int), (n : Int) + 1) ≠ (0, 0) := fun same => by
      have := congrArg Prod.snd same
      dsimp only at this
      omega
    have go : exact_ 0 b (0, (n : Int) + 1) = (0, (n : Int)) := by
      rw [exact_, if_neg more, errAt_column, passed, if_neg (by omega), if_pos (by omega)]
      simp
    have same := fits.passed_eq more
    refine .pass more ?_ ?_
    · rw [same, go]
      exact ⟨Int.le_refl 0, Int.natCast_nonneg n⟩
    · rw [same, go]
      exact ih (go ▸ fits.next)

/-- A line whose sums fit comes to its end. -/
theorem reaches_of_fits (wide : 0 ≤ a) (high : 0 ≤ b) (fits : SumsFit a b (a, b)) : Reaches a b (a, b) := by
  rcases wide.eq_or_lt with rfl | left
  · rcases high.eq_or_lt with rfl | up
    · exact .done
    · have := reaches_column up b.toNat (by rwa [Int.toNat_of_nonneg high])
      rwa [Int.toNat_of_nonneg high] at this
  · rcases high.eq_or_lt with rfl | up
    · have := reaches_row left a.toNat (by rwa [Int.toNat_of_nonneg wide])
      rwa [Int.toNat_of_nonneg wide] at this
    · refine reaches_near ⟨left, up⟩ (toGo a b a b).toNat ?_ ⟨wide, high⟩ (near_start ⟨left, up⟩) fits
      unfold toGo
      split <;> omega

/-! ### Sums that do not fit -/

/-- The sum on the side on which it cannot leave 32 bits. -/
def OneSide (a b : Int) (s : Int × Int) : Prop :=
  if b ≤ a then a - 2 * b ≤ errAt a b s.1 s.2 * 2 else errAt a b s.1 s.2 * 2 ≤ 2 * a - b

theorem oneSide_start (wide : 0 ≤ a) (high : 0 ≤ b) : OneSide a b (a, b) := by
  have : b * a = a * b := Int.mul_comm b a
  unfold OneSide errAt
  split <;> dsimp only <;> omega

theorem errAt_passed (a b e2 : Int) (s : Int × Int) :
    errAt a b (passed a b e2 s).1 (passed a b e2 s).2 =
      errAt a b s.1 s.2 - (if -b < e2 then b else 0) + if e2 < a then a else 0 := by
  have before : (s.1 - 1) * b = s.1 * b - b := by ring
  have above : (s.2 - 1) * a = s.2 * a - a := by ring
  unfold errAt passed
  dsimp only
  split <;> split <;> omega

theorem OneSide.next (wide : 0 ≤ a) (high : 0 ≤ b) (side : OneSide a b s) : OneSide a b (exact_ a b s) := by
  unfold exact_
  split
  · exact side
  · unfold OneSide at side ⊢
    rw [errAt_passed]
    split at side
    next le => rw [if_pos le]; split <;> split <;> omega
    next le => rw [if_neg le]; split <;> split <;> omega

/-- The doubled error of the code is the sum, up to a multiple of the range. -/
theorem doubled_spec (a b p q : Int) :
    ∃ k, errAt a b p q * 2 = doubled a b p q + 2 ^ 32 * k ∧ -2 ^ 31 ≤ doubled a b p q ∧ doubled a b p q < 2 ^ 31 := by
  unfold doubled
  generalize errAt a b p q * 2 = v
  rw [Int.bmod_def]
  split
  · exact ⟨v / 2 ^ 32, by omega, by omega, by omega⟩
  · exact ⟨v / 2 ^ 32 + 1, by omega, by omega, by omega⟩

/-- A line that comes to its end keeps its sums on the other side in 32 bits as well: a sum that has left them on the side
of the longer axis never comes back. -/
theorem Reaches.other_side (wide : 0 ≤ a ∧ a < 2 ^ 31) (high : 0 ≤ b ∧ b < 2 ^ 31) (reaches : Reaches a b s)
    (low : 0 ≤ s.1 ∧ 0 ≤ s.2) (more : s ≠ (0, 0)) :
    if b ≤ a then errAt a b s.1 s.2 * 2 < 2 ^ 31 else -2 ^ 31 ≤ errAt a b s.1 s.2 * 2 := by
  induction reaches with
  | done => exact absurd rfl more
  | @pass s _ lowNext _ ih =>
    obtain ⟨k, sum, least, most⟩ := doubled_spec a b s.1 s.2
    have next := errAt_passed a b (doubled a b s.1 s.2) s
    by_cases last : passed a b (doubled a b s.1 s.2) s = (0, 0)
    · -- one step to go, on one axis or on both
      have column : (if -b < doubled a b s.1 s.2 then s.1 - 1 else s.1) = 0 := congrArg Prod.fst last
      have row : (if doubled a b s.1 s.2 < a then s.2 - 1 else s.2) = 0 := congrArg Prod.snd last
      have stay := some_ne more
      rw [last, show errAt a b (0, 0).1 (0, 0).2 = a - b by simp [errAt]] at next
      generalize doubled a b s.1 s.2 = e2 at *
      generalize errAt a b s.1 s.2 = e at *
      by_cases right : -b < e2
      · rw [if_pos right] at column next
        by_cases down : e2 < a
        · rw [if_pos down] at row next
          split <;> omega
        · rw [if_neg down] at row next
          split <;> omega
      · rw [if_neg right] at column next
        by_cases down : e2 < a
        · rw [if_pos down] at row next
          split <;> omega
        · rw [if_neg down] at row next
          omega
    · have rest := ih lowNext last
      rw [next] at rest
      split
      next le =>
        rw [if_pos le] at rest
        split at rest <;> split at rest <;> omega
      next le =>
        rw [if_neg le] at rest
        split at rest <;> split at rest <;> omega

/-- At every place of a line that comes to its end the sums fit. -/
theorem fits_of_reaches (wide : 0 ≤ a ∧ a < 2 ^ 31) (high : 0 ≤ b ∧ b < 2 ^ 31) (reaches : Reaches a b s)
    (low : 0 ≤ s.1 ∧ 0 ≤ s.2) (side : OneSide a b s) : SumsFit a b s := by
  have here : ∀ {s}, Reaches a b s → 0 ≤ s.1 ∧ 0 ≤ s.2 → OneSide a b s → s ≠ (0, 0) →
      InInt (errAt a b s.1 s.2 * 2) := by
    intro s reaches low side more
    have other := reaches.other_side wide high low more
    unfold OneSide at side
    unfold InInt
    split at other
    next le => rw [if_pos le] at side; omega
    next le => rw [if_neg le] at side; omega
  intro n
  induction n generalizing s with
  | zero => exact here reaches low side
  | succ n ih =>
    rw [Function.iterate_succ_apply]
    by_cases more : s = (0, 0)
    · have stays : exact_ a b s = s := if_pos more
      rw [stays]
      exact ih reaches low side
    · have fits := here reaches low side more
      have same : passed a b (doubled a b s.1 s.2) s = exact_ a b s := by
        rw [doubled, bmod_of_inInt fits, exact_, if_neg more]
      cases reaches with
      | done => exact absurd rfl more
      | pass _ lowNext rest =>
        rw [same] at lowNext rest
        exact ih rest lowNext (side.next wide.1 high.1)

theorem reaches_iff (wide : 0 ≤ a ∧ a < 2 ^ 31) (high : 0 ≤ b ∧ b < 2 ^ 31) :
    Reaches a b (a, b) ↔ SumsFit a b (a, b) :=
  ⟨fun reaches => fits_of_reaches wide high reaches ⟨wide.1, high.1⟩ (oneSide_start wide.1 high.1),
    reaches_of_fits wide.1 high.1⟩

/-! ### The loop in 32 bits -/

variable {x0 y0 x1 y1 dx dy sx sy x y err step : Int32}

theorem inInt_toInt (v : Int32) : InInt v.toInt := ⟨v.le_toInt, v.toInt_lt⟩

theorem leads_next (leads : Leads step.toInt x.toInt x1.toInt p) (one : 1 ≤ p) :
    Leads step.toInt (x + step).toInt x1.toInt (p - 1) := by
  have from_ := inInt_toInt x
  have to_ := inInt_toInt x1
  have moved : (x + step).toInt = x.toInt + step.toInt := by
    rw [Int32.toInt_add]
    apply bmod_of_inInt
    unfold InInt at from_ to_ ⊢
    unfold Leads at leads
    omega
  unfold Leads at leads ⊢
  omega

/-- A step that stays in the box of the line has a step to go. -/
theorem one_le_of_within (start : Leads step.toInt x0.toInt x1.toInt a) (leads : Leads step.toInt x.toInt x1.toInt p)
    (wide : 0 ≤ a ∧ a < 2 ^ 31) (low : 0 ≤ p) (inside : Within x0 x1 (x + step)) : 1 ≤ p := by
  by_contra less
  have from_ := inInt_toInt x0
  have to_ := inInt_toInt x1
  unfold Within at inside
  rw [Int32.toInt_add, Int.bmod_def] at inside
  unfold InInt at from_ to_
  unfold Leads at start leads
  split at inside <;> omega

/-- The loop's variables at a place with so many columns and rows to go. -/
structure Tracks (x1 y1 dx dy sx sy x y err : Int32) (a b : Int) (s : Int × Int) : Prop where
  dx : dx.toInt = a
  dy : dy.toInt = b
  wide : 0 ≤ a ∧ a < 2 ^ 31
  high : 0 ≤ b ∧ b < 2 ^ 31
  column : Leads sx.toInt x.toInt x1.toInt s.1
  row : Leads sy.toInt y.toInt y1.toInt s.2
  err : err.toInt = (errAt a b s.1 s.2).bmod (2 ^ 32)

namespace Tracks

variable (t : Tracks x1 y1 dx dy sx sy x y err a b s)

include t

theorem e2_eq : (err * 2).toInt = doubled a b s.1 s.2 := by
  rw [Int32.toInt_mul, t.err, doubled]
  exact Int.bmod_mul_bmod

theorem right_iff : err * 2 > -dy ↔ -b < doubled a b s.1 s.2 := by
  have neg : (-dy).toInt = -b := by
    rw [Int32.toInt_neg, t.dy]
    have := t.high
    exact bmod_of_inInt ⟨by omega, by omega⟩
  rw [gt_iff_lt, Int32.lt_iff_toInt_lt, neg, t.e2_eq]

theorem down_iff : err * 2 < dx ↔ doubled a b s.1 s.2 < a := by
  rw [Int32.lt_iff_toInt_lt, t.dx, t.e2_eq]

theorem done_iff : x = x1 ∧ y = y1 ↔ s = (0, 0) := by
  have column := t.column
  have row := t.row
  unfold Leads at column row
  rw [← Int32.toInt_inj, ← Int32.toInt_inj (x := y), Prod.ext_iff]
  dsimp only
  omega

theorem next (low : 0 ≤ (passed a b (doubled a b s.1 s.2) s).1 ∧ 0 ≤ (passed a b (doubled a b s.1 s.2) s).2) :
    Tracks x1 y1 dx dy sx sy (if err * 2 > -dy then x + sx else x) (if err * 2 < dx then y + sy else y)
      (if err * 2 < dx then (if err * 2 > -dy then err - dy else err) + dx else if err * 2 > -dy then err - dy else err)
      a b (passed a b (doubled a b s.1 s.2) s) := by
  have error := errAt_passed a b (doubled a b s.1 s.2) s
  refine ⟨t.dx, t.dy, t.wide, t.high, ?_, ?_, ?_⟩
  · unfold passed at low ⊢
    by_cases right : -b < doubled a b s.1 s.2
    · simp only [right, t.right_iff, if_true] at low ⊢
      exact leads_next t.column (by omega)
    · simp only [right, t.right_iff, if_false]
      exact t.column
  · unfold passed at low ⊢
    by_cases down : doubled a b s.1 s.2 < a
    · simp only [down, t.down_iff, if_true] at low ⊢
      exact leads_next t.row (by omega)
    · simp only [down, t.down_iff, if_false]
      exact t.row
  · rw [error]
    by_cases right : -b < doubled a b s.1 s.2 <;> by_cases down : doubled a b s.1 s.2 < a
    · simp only [right, down, t.right_iff, t.down_iff, if_true, Int32.toInt_add, Int32.toInt_sub, t.dx, t.dy, t.err,
        Int.bmod_add_bmod, Int.bmod_sub_bmod]
    · simp only [right, down, t.right_iff, t.down_iff, if_true, if_false, Int32.toInt_sub, t.dy, t.err,
        Int.bmod_sub_bmod, add_zero]
    · simp only [right, down, t.right_iff, t.down_iff, if_true, if_false, Int32.toInt_add, t.dx, t.err,
        Int.bmod_add_bmod, sub_zero]
    · simp only [right, down, t.right_iff, t.down_iff, if_false, t.err, sub_zero, add_zero]

omit t

end Tracks

theorem fbLineLoop_succ (passes : Nat) (more : ¬(x = x1 ∧ y = y1)) :
    fbLineLoop x1 y1 dx dy sx sy (passes + 1) x y err =
      (fbLineLoop x1 y1 dx dy sx sy passes (if err * 2 > -dy then x + sx else x) (if err * 2 < dx then y + sy else y)
        (if err * 2 < dx then (if err * 2 > -dy then err - dy else err) + dx
          else if err * 2 > -dy then err - dy else err)).map ((x, y) :: ·) := by
  rw [fbLineLoop, if_neg more]
  dsimp only
  split <;> split <;> rfl

/-- The places of a loop begin with the one it is at. -/
theorem mem_fbLineLoop {passes : Nat} {places : List (Int32 × Int32)}
    (drawn : fbLineLoop x1 y1 dx dy sx sy passes x y err = some places) : (x, y) ∈ places := by
  cases passes with
  | zero => cases drawn
  | succ passes =>
    by_cases more : x = x1 ∧ y = y1
    · rw [fbLineLoop, if_pos more] at drawn
      cases drawn
      exact List.mem_cons_self
    · rw [fbLineLoop_succ passes more] at drawn
      obtain ⟨rest, _, rfl⟩ := Option.map_eq_some_iff.mp drawn
      exact List.mem_cons_self

theorem within_left (x x1 : Int32) : Within x x1 x := by
  unfold Within
  omega

theorem within_of_leads (leads : Leads step.toInt x.toInt x1.toInt p)
    {v : Int32} (next : Within (x + step) x1 v ∧ 1 ≤ p ∨ Within x x1 v) : Within x x1 v := by
  rcases next with ⟨inside, one⟩ | inside
  · have after := leads_next leads one
    unfold Within at inside ⊢
    unfold Leads at leads after
    omega
  · exact inside

/-- A line that comes to its end is drawn, in the box of what is left of it. -/
theorem fbLineLoop_of_reaches (reaches : Reaches a b s) (low : 0 ≤ s.1 ∧ 0 ≤ s.2)
    (t : Tracks x1 y1 dx dy sx sy x y err a b s) :
    ∃ passes places, fbLineLoop x1 y1 dx dy sx sy passes x y err = some places ∧ (x1, y1) ∈ places ∧
      ∀ v ∈ places, Within x x1 v.1 ∧ Within y y1 v.2 := by
  induction reaches generalizing x y err with
  | done =>
    have ⟨sameX, sameY⟩ := t.done_iff.mpr rfl
    subst sameX sameY
    refine ⟨1, [(x, y)], by rw [fbLineLoop, if_pos ⟨rfl, rfl⟩], List.mem_singleton_self _, fun v mem => ?_⟩
    rw [List.mem_singleton.mp mem]
    exact ⟨within_left x x, within_left y y⟩
  | @pass s more lowNext _ ih =>
    obtain ⟨passes, places, drawn, ends, inside⟩ := ih lowNext (t.next lowNext)
    have goes : ¬(x = x1 ∧ y = y1) := fun done => more (t.done_iff.mp done)
    refine ⟨passes + 1, (x, y) :: places, by rw [fbLineLoop_succ passes goes, drawn]; rfl,
      List.mem_cons_of_mem _ ends, fun v mem => ?_⟩
    rcases List.mem_cons.mp mem with rfl | later
    · exact ⟨within_left x x1, within_left y y1⟩
    · have ⟨column, row⟩ := inside v later
      simp only [passed, ← t.right_iff, ← t.down_iff] at lowNext
      constructor
      · refine within_of_leads t.column ?_
        split at column
        next right =>
          rw [if_pos right] at lowNext
          exact .inl ⟨column, by omega⟩
        · exact .inr column
      · refine within_of_leads t.row ?_
        split at row
        next down =>
          rw [if_pos down] at lowNext
          exact .inl ⟨row, by omega⟩
        · exact .inr row

/-- A loop that ends and stays in the box of the line comes to its end. -/
theorem reaches_of_fbLineLoop {passes : Nat} {places : List (Int32 × Int32)}
    (startX : Leads sx.toInt x0.toInt x1.toInt a) (startY : Leads sy.toInt y0.toInt y1.toInt b)
    (low : 0 ≤ s.1 ∧ 0 ≤ s.2) (t : Tracks x1 y1 dx dy sx sy x y err a b s)
    (drawn : fbLineLoop x1 y1 dx dy sx sy passes x y err = some places)
    (inside : ∀ v ∈ places, Within x0 x1 v.1 ∧ Within y0 y1 v.2) : Reaches a b s := by
  induction passes generalizing x y err s places with
  | zero => cases drawn
  | succ passes ih =>
    by_cases more : s = (0, 0)
    · exact more ▸ .done
    · have goes : ¬(x = x1 ∧ y = y1) := fun done => more (t.done_iff.mp done)
      rw [fbLineLoop_succ passes goes] at drawn
      obtain ⟨rest, later, rfl⟩ := Option.map_eq_some_iff.mp drawn
      have first := inside _ (List.mem_cons_of_mem _ (mem_fbLineLoop later))
      have lowNext : 0 ≤ (passed a b (doubled a b s.1 s.2) s).1 ∧ 0 ≤ (passed a b (doubled a b s.1 s.2) s).2 := by
        simp only [passed, ← t.right_iff, ← t.down_iff]
        dsimp only at first
        constructor
        · by_cases right : err * 2 > -dy
          · rw [if_pos right] at first ⊢
            have := one_le_of_within startX t.column t.wide low.1 first.1
            omega
          · rw [if_neg right]
            exact low.1
        · by_cases down : err * 2 < dx
          · rw [if_pos down] at first ⊢
            have := one_le_of_within startY t.row t.high low.2 first.2
            omega
          · rw [if_neg down]
            exact low.2
      exact .pass more lowNext (ih lowNext (t.next lowNext) later fun v mem => inside v (List.mem_cons_of_mem _ mem))

/-! ### Every line -/

/-- Both differences are in 32 bits, and so is the doubled error at every place of the line that computes without
bounds. -/
def LineFits (x0 y0 x1 y1 : Int32) : Prop :=
  gap x0.toInt x1.toInt < 2 ^ 31 ∧ gap y0.toInt y1.toInt < 2 ^ 31 ∧
    SumsFit (gap x0.toInt x1.toInt) (gap y0.toInt y1.toInt) (gap x0.toInt x1.toInt, gap y0.toInt y1.toInt)

/-- The distance of two numbers and the step from the one to the other, as the code has them. -/
theorem distance_spec (near : gap x0.toInt x1.toInt < 2 ^ 31) :
    (if x1 - x0 < 0 then -(x1 - x0) else x1 - x0).toInt = gap x0.toInt x1.toInt ∧
      Leads (if x1 - x0 < 0 then (-1 : Int32) else 1).toInt x0.toInt x1.toInt (gap x0.toInt x1.toInt) := by
  have diff : (x1 - x0).toInt = x1.toInt - x0.toInt := by
    rw [Int32.toInt_sub]
    unfold gap at near
    exact bmod_of_inInt ⟨by omega, by omega⟩
  have sign : x1 - x0 < 0 ↔ x1.toInt - x0.toInt < 0 := by rw [Int32.lt_iff_toInt_lt, diff, Int32.toInt_zero]
  unfold gap at near ⊢
  unfold Leads
  by_cases left : x1 - x0 < 0
  · rw [if_pos left, if_pos left]
    have less := sign.mp left
    constructor
    · rw [Int32.toInt_neg, diff, bmod_of_inInt ⟨by omega, by omega⟩]
      omega
    · exact .inr ⟨by decide, by omega⟩
  · rw [if_neg left, if_neg left]
    have less := mt sign.mpr left
    exact ⟨by omega, .inl ⟨by decide, by omega⟩⟩

theorem tracks_start (nearX : gap x0.toInt x1.toInt < 2 ^ 31) (nearY : gap y0.toInt y1.toInt < 2 ^ 31) :
    Tracks x1 y1 (if x1 - x0 < 0 then -(x1 - x0) else x1 - x0) (if y1 - y0 < 0 then -(y1 - y0) else y1 - y0)
      (if x1 - x0 < 0 then -1 else 1) (if y1 - y0 < 0 then -1 else 1) x0 y0
      ((if x1 - x0 < 0 then -(x1 - x0) else x1 - x0) - if y1 - y0 < 0 then -(y1 - y0) else y1 - y0)
      (gap x0.toInt x1.toInt) (gap y0.toInt y1.toInt) (gap x0.toInt x1.toInt, gap y0.toInt y1.toInt) := by
  have ⟨dx, column⟩ := distance_spec nearX
  have ⟨dy, row⟩ := distance_spec nearY
  refine ⟨dx, dy, ⟨by unfold gap; omega, nearX⟩, ⟨by unfold gap; omega, nearY⟩, column, row, ?_⟩
  rw [Int32.toInt_sub, dx, dy]
  congr 1
  unfold errAt
  dsimp only
  ring

theorem ends_of_fits (fits : LineFits x0 y0 x1 y1) : Ends x0 y0 x1 y1 := by
  obtain ⟨nearX, nearY, fits⟩ := fits
  have t := tracks_start nearX nearY
  obtain ⟨passes, places, drawn, ends, inside⟩ := fbLineLoop_of_reaches
    ((reaches_iff t.wide t.high).mpr fits) ⟨t.wide.1, t.high.1⟩ t
  exact ⟨passes, places, drawn, mem_fbLineLoop drawn, ends, inside⟩

theorem fits_of_ends (nearX : gap x0.toInt x1.toInt < 2 ^ 31) (nearY : gap y0.toInt y1.toInt < 2 ^ 31)
    (ends : Ends x0 y0 x1 y1) : LineFits x0 y0 x1 y1 := by
  obtain ⟨passes, places, drawn, _, _, inside⟩ := ends
  have t := tracks_start nearX nearY
  exact ⟨nearX, nearY, (reaches_iff t.wide t.high).mp
    (reaches_of_fbLineLoop t.column t.row ⟨t.wide.1, t.high.1⟩ t drawn inside)⟩

/-- `fb_line` ends, with both ends and within their box, if its sums fit, and only then when its differences do. -/
theorem fbLine_ends_iff (x0 y0 x1 y1 : Int32) :
    (LineFits x0 y0 x1 y1 → Ends x0 y0 x1 y1) ∧
      (gap x0.toInt x1.toInt < 2 ^ 31 ∧ gap y0.toInt y1.toInt < 2 ^ 31 →
        (Ends x0 y0 x1 y1 ↔ LineFits x0 y0 x1 y1)) :=
  ⟨ends_of_fits, fun near => ⟨fits_of_ends near.1 near.2, ends_of_fits⟩⟩

/-- A horizontal line of `2 ^ 30` leaves its row. -/
theorem wide_row_leaves : ¬∀ x0 y0 x1 y1, Ends x0 y0 x1 y1 := by
  intro all
  have ⟨_, _, fits⟩ := fits_of_ends (by decide) (by decide) (all 0 0 1073741824 0)
  exact absurd (fits 0 (by decide)) (by decide)

end RPCortex.Abi
