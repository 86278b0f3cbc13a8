import Mathlib

/-! A scrolling list, `tuilist.cpp`, under the keys and the mouse of a screen that shows one, as in `settings.cpp`.  The
fields and what is computed from them are of type `int`; in a list of so many items and rows that the bar can be computed
nothing overflows. -/

namespace RPCortex.Tui

/-- What is kept of a number in an `int`. -/
def int (n : Int) : Int := n.bmod (2 ^ 32)

theorem int_eq {n : Int} (low : -2147483648 ≤ n) (high : n < 2147483648) : int n = n :=
  Int.bmod_eq_of_le (by omega) (by omega)

/-- `TuiList`. -/
structure TuiList where
  count : Int
  sel : Int
  top : Int
  rows : Int
  wrap : Bool

/-- `max_top`. -/
def TuiList.maxTop (l : TuiList) : Int := if int (l.count - l.rows) < 0 then 0 else int (l.count - l.rows)

/-- The end of `tuilist_clamp`: the window follows the selection. -/
def TuiList.follow (l : TuiList) : TuiList :=
  let top := if l.sel < l.top then l.sel else l.top
  { l with top := if int (top + l.rows) ≤ l.sel then int (int (l.sel - l.rows) + 1) else top }

/-- A position moved into the window's range, from above and then from below. -/
def into (most n : Int) : Int :=
  let n := if most < n then most else n
  if n < 0 then 0 else n

/-- `tuilist_clamp`. -/
def TuiList.clamp (l : TuiList) : TuiList :=
  let l := if l.rows < 1 then { l with rows := 1 } else l
  if l.count ≤ 0 then { l with count := 0, sel := 0, top := 0 }
  else
    let sel := if l.sel < 0 then 0 else l.sel
    let sel := if l.count ≤ sel then int (l.count - 1) else sel
    TuiList.follow { l with sel, top := into l.maxTop l.top }

/-- `tuilist_init`. -/
def TuiList.init (count rows : Int) : TuiList :=
  TuiList.clamp ⟨if count < 0 then 0 else count, 0, 0, if rows < 1 then 1 else rows, true⟩

/-- The loop that brings a position back into a list of `count` items; a negative and a positive `int` do not
overflow. -/
def upTo (count n : Int) : Int :=
  if n < 0 ∧ 0 < count then upTo count (n + count) else n
  termination_by (-n).toNat

/-- `tuilist_move`. -/
def TuiList.move (l : TuiList) (delta : Int) : TuiList :=
  if l.count ≤ 0 then l
  else
    let n := int (l.sel + delta)
    TuiList.clamp { l with sel := if l.wrap then (upTo l.count n).tmod l.count else n }

/-- `tuilist_page`. -/
def TuiList.page (l : TuiList) (dir : Int) : TuiList :=
  if l.count ≤ 0 then l
  else
    let step := if 1 < l.rows then int (l.rows - 1) else 1
    let sel := int (l.sel + int (dir * step))
    let sel := if sel < 0 then 0 else sel
    TuiList.clamp { l with sel := if l.count ≤ sel then int (l.count - 1) else sel }

/-- `tuilist_home`. -/
def TuiList.home (l : TuiList) : TuiList := TuiList.clamp { l with sel := 0, top := 0 }

/-- `tuilist_end`. -/
def TuiList.end_ (l : TuiList) : TuiList :=
  if l.count ≤ 0 then l else TuiList.clamp { l with sel := int (l.count - 1) }

/-- `tuilist_scroll`. -/
def TuiList.scroll (l : TuiList) (delta : Int) : TuiList :=
  if l.count ≤ 0 then l
  else
    let top := if int (l.top + delta) < 0 then 0 else int (l.top + delta)
    { l with top := if l.maxTop < top then l.maxTop else top }

/-- `tuilist_item_at_row`. -/
def TuiList.itemAtRow (l : TuiList) (row : Int) : Int :=
  if row < 0 ∨ l.rows ≤ row then -1
  else
    let idx := int (l.top + row)
    if 0 ≤ idx ∧ idx < l.count then idx else -1

/-- `tuilist_row_of_item`. -/
def TuiList.rowOfItem (l : TuiList) (index : Int) : Int :=
  if index < l.top ∨ int (l.top + l.rows) ≤ index then -1 else int (index - l.top)

/-- `tuilist_scrollbar`: the row and the length of the thumb. -/
def TuiList.scrollbar (l : TuiList) : Option (Int × Int) :=
  if l.count ≤ l.rows ∨ l.rows ≤ 0 then none
  else
    let len := (int (l.rows * l.rows)).tdiv l.count
    let len := if len < 1 then 1 else len
    let span := int (l.rows - len)
    let maxTop := int (l.count - l.rows)
    let row := if 0 < maxTop then (int (l.top * span)).tdiv maxTop else 0
    let row := if row < 0 then 0 else row
    some (if span < row then span else row, len)

/-- What a screen does with its list; a terminal of another height, a row that is clicked and an item that is chosen
by its number are `settings.cpp`. -/
inductive ListOp
  | move (delta : Int)
  | page (dir : Int)
  | home
  | end_
  | scroll (delta : Int)
  | resize (rows : Int)
  | click (row : Int)
  | choose (index : Int)

def TuiList.step (l : TuiList) : ListOp → TuiList
  | .move delta => l.move delta
  | .page dir => l.page dir
  | .home => l.home
  | .end_ => l.end_
  | .scroll delta => l.scroll delta
  | .resize rows => TuiList.clamp { l with rows := if rows < 1 then 1 else rows }
  | .click row => if 0 ≤ l.itemAtRow row then TuiList.clamp { l with sel := l.itemAtRow row } else l
  | .choose index => if 0 ≤ index ∧ index < l.count then TuiList.clamp { l with sel := index } else l

/-! ### The window -/

/-- The selection is an item, the window shows no blank row below a list that could fill it, and it is no higher than
the highest there is. -/
structure TuiList.Sound (l : TuiList) (count most : Int) : Prop where
  same : l.count = count
  items : 0 ≤ count ∧ count < 2147483648
  rows : 1 ≤ l.rows ∧ l.rows ≤ most
  sel : 0 ≤ l.sel ∧ l.sel < max count 1
  top : 0 ≤ l.top ∧ l.top ≤ max (count - l.rows) 0

/-- The selection is in the window. -/
def TuiList.Visible (l : TuiList) : Prop := l.top ≤ l.sel ∧ l.sel < l.top + l.rows

variable {l : TuiList} {count most : Int}

theorem into_le {last : Int} (nonneg : 0 ≤ last) (n : Int) : 0 ≤ into last n ∧ into last n ≤ last := by
  unfold into
  dsimp only
  split <;> split <;> omega

theorem maxTop_eq (count_ : 0 ≤ l.count ∧ l.count < 2147483648) (rows : 1 ≤ l.rows ∧ l.rows < 2147483648) :
    l.maxTop = max (l.count - l.rows) 0 := by
  unfold TuiList.maxTop
  rw [int_eq (by omega) (by omega)]
  split <;> omega

/-- Whatever the fields were: a list that was clamped is sound and shows its selection. -/
theorem clamp_sound (same : max l.count 0 = count) (items : count < 2147483648) (fits : l.rows ≤ most)
    (some_ : 1 ≤ most ∧ most < 2147483648) : l.clamp.Sound count most ∧ l.clamp.Visible := by
  have rows : ∃ r, (1 ≤ r ∧ r ≤ most) ∧ (if l.rows < 1 then { l with rows := 1 } else l) = { l with rows := r } := by
    split
    · exact ⟨1, ⟨Int.le_refl _, some_.1⟩, rfl⟩
    next high => exact ⟨l.rows, ⟨Int.not_lt.mp high, fits⟩, rfl⟩
  obtain ⟨r, height, rows⟩ := rows
  unfold TuiList.clamp
  rw [rows]
  dsimp only
  split
  next none_ =>
    have zero : 0 = count := by omega
    have low : (0 : Int) < 0 + r := by omega
    exact ⟨⟨zero, ⟨by omega, items⟩, height, ⟨Int.le_refl _, by dsimp only; omega⟩,
      ⟨Int.le_refl _, by dsimp only; omega⟩⟩, ⟨Int.le_refl _, low⟩⟩
  next long =>
    have pos : l.count = count := by omega
    rw [int_eq (show -2147483648 ≤ l.count - 1 by omega) (by omega)]
    have sel : ∃ s, (if l.count ≤ (if l.sel < 0 then 0 else l.sel) then l.count - 1 else if l.sel < 0 then 0 else l.sel)
        = s ∧ 0 ≤ s ∧ s < l.count := by
      by_cases below : l.sel < 0
      · rw [if_pos below, if_neg (by omega)]
        exact ⟨0, rfl, Int.le_refl _, by omega⟩
      · rw [if_neg below]
        split
        · exact ⟨_, rfl, by omega, by omega⟩
        · exact ⟨_, rfl, by omega, by omega⟩
    obtain ⟨s, sel, low, high⟩ := sel
    have last : TuiList.maxTop { l with rows := r } = max (l.count - r) 0 :=
      maxTop_eq (by dsimp only; omega) (by dsimp only; omega)
    have inside := @into_le (TuiList.maxTop { l with rows := r }) (by omega) l.top
    rw [sel]
    generalize into (TuiList.maxTop { l with rows := r }) l.top = t at inside
    have behind : 0 ≤ (if s < t then s else t) ∧ (if s < t then s else t) ≤ max (l.count - r) 0 ∧
        (if s < t then s else t) ≤ s := by
      split <;> omega
    unfold TuiList.follow TuiList.Visible
    dsimp only
    generalize (if s < t then s else t) = t' at behind
    rw [int_eq (show -2147483648 ≤ t' + r by omega) (by omega), int_eq (show -2147483648 ≤ s - r by omega) (by omega),
      int_eq (show -2147483648 ≤ s - r + 1 by omega) (by omega)]
    have window : 0 ≤ (if t' + r ≤ s then s - r + 1 else t') ∧
        (if t' + r ≤ s then s - r + 1 else t') ≤ max (l.count - r) 0 ∧
        (if t' + r ≤ s then s - r + 1 else t') ≤ s ∧ s < (if t' + r ≤ s then s - r + 1 else t') + r := by
      split <;> omega
    generalize (if t' + r ≤ s then s - r + 1 else t') = t'' at window
    exact ⟨⟨pos, ⟨by omega, items⟩, height, ⟨low, by dsimp only; omega⟩, ⟨window.1, by dsimp only; omega⟩⟩, window.2.2⟩

theorem init_sound {rows : Int} (items : count < 2147483648) (fits : rows ≤ most)
    (some_ : 1 ≤ most ∧ most < 2147483648) :
    (TuiList.init count rows).Sound (max count 0) most ∧ (TuiList.init count rows).Visible := by
  refine clamp_sound ?_ (by omega) ?_ some_
  · dsimp only
    split <;> omega
  · dsimp only
    split <;> omega

/-! ### Its steps -/

/-- The step is computed without an overflow: a move or a turn of the wheel leads to no number that is too large, a page
is one up or down, and no height is greater than the greatest. -/
def ListOp.Small (count most : Int) : ListOp → Prop
  | .move delta | .scroll delta => count + delta < 2147483648 ∧ -2147483648 ≤ delta
  | .page dir => dir = 1 ∨ dir = -1
  | .resize rows => rows ≤ most
  | .home | .end_ | .click _ | .choose _ => True

/-- The keys and a new height. -/
def ListOp.keyed : ListOp → Prop
  | .move _ | .page _ | .home | .end_ | .resize _ => True
  | .scroll _ | .click _ | .choose _ => False

theorem scroll_sound (some_ : 1 ≤ most ∧ most < 2147483648) (sound : l.Sound count most) {delta : Int} (small : (ListOp.scroll delta).Small count most) :
    (l.scroll delta).Sound count most := by
  obtain ⟨same, items, rows, sel, top⟩ := sound
  unfold ListOp.Small at small
  unfold TuiList.scroll
  split
  · exact ⟨same, items, rows, sel, top⟩
  · have last := maxTop_eq (l := l) (by omega) (by omega)
    rw [int_eq (show -2147483648 ≤ l.top + delta by omega) (by omega)]
    refine ⟨same, items, rows, sel, ?_⟩
    dsimp only
    split <;> split <;> omega

theorem TuiList.Sound.visible (sound : l.Sound count most) (none_ : l.count ≤ 0) : l.Visible := by
  obtain ⟨same, items, rows, sel, top⟩ := sound
  exact ⟨by omega, by omega⟩

/-- What clamps a sound list, or finds it empty. -/
theorem clamped_sound (some_ : 1 ≤ most ∧ most < 2147483648) (sound : l.Sound count most) (s t : Int) {r : Int} (fits : r ≤ most) :
    (if l.count ≤ 0 then l else TuiList.clamp ⟨l.count, s, t, r, l.wrap⟩).Sound count most ∧
      (if l.count ≤ 0 then l else TuiList.clamp ⟨l.count, s, t, r, l.wrap⟩).Visible := by
  have same := sound.same
  have items := sound.items
  split
  next none_ => exact ⟨sound, sound.visible none_⟩
  · exact clamp_sound (by dsimp only; omega) items.2 fits some_

theorem keyed_sound (some_ : 1 ≤ most ∧ most < 2147483648) (sound : l.Sound count most) {op : ListOp} (small : op.Small count most) (key : op.keyed) :
    (l.step op).Sound count most ∧ (l.step op).Visible := by
  have same := sound.same
  have items := sound.items
  have rows := sound.rows.2
  cases op with
  | move delta => exact clamped_sound some_ sound _ _ rows
  | page dir => exact clamped_sound some_ sound _ _ rows
  | home => exact clamp_sound (by dsimp only; omega) items.2 rows some_
  | end_ => exact clamped_sound some_ sound _ _ rows
  | resize rows =>
    refine clamp_sound (by dsimp only; omega) items.2 ?_ some_
    unfold ListOp.Small at small
    dsimp only
    split <;> omega
  | scroll | click | choose => exact key.elim

theorem step_sound (some_ : 1 ≤ most ∧ most < 2147483648) (sound : l.Sound count most) {op : ListOp} (small : op.Small count most) :
    (l.step op).Sound count most := by
  have same := sound.same
  have items := sound.items
  have rows := sound.rows.2
  by_cases key : op.keyed
  · exact (keyed_sound some_ sound small key).1
  cases op with
  | move | page | home | end_ | resize => exact absurd trivial key
  | scroll delta => exact scroll_sound some_ sound small
  | click row =>
    unfold TuiList.step
    dsimp only
    split
    · exact (clamp_sound (l := { l with sel := l.itemAtRow row }) (by dsimp only; omega) items.2 rows some_).1
    · exact sound
  | choose index =>
    unfold TuiList.step
    dsimp only
    split
    · exact (clamp_sound (l := { l with sel := index }) (by dsimp only; omega) items.2 rows some_).1
    · exact sound

theorem run_sound (some_ : 1 ≤ most ∧ most < 2147483648) (sound : l.Sound count most) {ops : List ListOp} (small : ∀ op ∈ ops, op.Small count most) :
    (ops.foldl TuiList.step l).Sound count most := by
  induction ops generalizing l with
  | nil => exact sound
  | cons op ops ih =>
    exact ih (step_sound some_ sound (small op List.mem_cons_self)) fun op mem => small op (List.mem_cons_of_mem _ mem)

/-! ### Rows and items -/

/-- Every row of the window has its item, but for those below a list that is shorter than the window. -/
theorem itemAtRow_eq (low : most < 2147483648) (sound : l.Sound count most) (row : Int) :
    l.itemAtRow row = if 0 ≤ row ∧ row < min l.rows count then l.top + row else -1 := by
  obtain ⟨same, items, rows, sel, top⟩ := sound
  unfold TuiList.itemAtRow
  split
  next outside => rw [if_neg (by omega)]
  next inside =>
    dsimp only
    rw [same, int_eq (show -2147483648 ≤ l.top + row by omega) (by omega)]
    by_cases short : row < count
    · rw [if_pos (by omega), if_pos (by omega)]
    · rw [if_neg (by omega), if_neg (by omega)]

theorem rowOfItem_eq (low : most < 2147483648) (sound : l.Sound count most) {index : Int}
    (item : 0 ≤ index ∧ index < max count 1) :
    l.rowOfItem index = if index < l.top ∨ l.top + l.rows ≤ index then -1 else index - l.top := by
  obtain ⟨same, items, rows, sel, top⟩ := sound
  unfold TuiList.rowOfItem
  rw [int_eq (show -2147483648 ≤ l.top + l.rows by omega) (by omega),
    int_eq (show -2147483648 ≤ index - l.top by omega) (by omega)]

/-- A row has an item exactly where the item has the row. -/
theorem rowOfItem_iff (low : most < 2147483648) (sound : l.Sound count most) {index : Int}
    (item : 0 ≤ index ∧ index < count) (row : Int) : 0 ≤ row ∧ l.rowOfItem index = row ↔ l.itemAtRow row = index := by
  rw [itemAtRow_eq low sound, rowOfItem_eq low sound ⟨item.1, by omega⟩]
  obtain ⟨same, items, rows, sel, top⟩ := sound
  constructor
  · rintro ⟨nonneg, at_⟩
    split at at_
    · omega
    · rw [if_pos (by omega)]
      omega
  · intro at_
    split at at_
    · rw [if_neg (by omega)]
      omega
    · omega

/-! ### The scroll bar -/

/-- What the bar is computed from fits, once the items times the rows do. -/
theorem scrollbar_eq (room : count * most < 2147483648) (sound : l.Sound count most) :
    l.scrollbar =
      if count ≤ l.rows then none
      else
        let len := max ((l.rows * l.rows).tdiv count) 1
        let row := (l.top * (l.rows - len)).tdiv (count - l.rows)
        some (min row (l.rows - len), len) := by
  obtain ⟨same, items, rows, sel, top⟩ := sound
  unfold TuiList.scrollbar
  rw [same]
  by_cases short : count ≤ l.rows
  · rw [if_pos (.inl short), if_pos short]
  · rw [if_neg (by omega), if_neg short]
    have square : l.rows * l.rows ≤ count * most := Int.mul_le_mul (by omega) rows.2 (by omega) items.1
    have square_nonneg : 0 ≤ l.rows * l.rows := Int.mul_nonneg (by omega) (by omega)
    dsimp only
    rw [int_eq (show -2147483648 ≤ l.rows * l.rows by omega) (by omega),
      int_eq (show -2147483648 ≤ count - l.rows by omega) (by omega), if_pos (show 0 < count - l.rows by omega)]
    have thumb : (if (l.rows * l.rows).tdiv count < 1 then 1 else (l.rows * l.rows).tdiv count) =
        max ((l.rows * l.rows).tdiv count) 1 := by
      split <;> omega
    have bound : (l.rows * l.rows).tdiv count ≤ l.rows := by
      rw [Int.tdiv_eq_ediv_of_nonneg square_nonneg]
      refine Int.ediv_le_of_le_mul (by omega) ?_
      exact Int.mul_le_mul_of_nonneg_left (by omega) (by omega)
    rw [thumb]
    generalize len_eq : max ((l.rows * l.rows).tdiv count) 1 = len
    have len_ : 1 ≤ len ∧ len ≤ l.rows := by omega
    have area : l.top * (l.rows - len) ≤ count * most := Int.mul_le_mul (by omega) (by omega) (by omega) items.1
    have area_nonneg : 0 ≤ l.top * (l.rows - len) := Int.mul_nonneg top.1 (by omega)
    have row : 0 ≤ (l.top * (l.rows - len)).tdiv (count - l.rows) := Int.tdiv_nonneg area_nonneg (by omega)
    rw [int_eq (show -2147483648 ≤ l.rows - len by omega) (by omega),
      int_eq (show -2147483648 ≤ l.top * (l.rows - len) by omega) (by omega), if_neg (Int.not_lt.mpr row)]
    generalize (l.top * (l.rows - len)).tdiv (count - l.rows) = row
    congr 2
    split <;> omega

/-- The thumb is in the bar, at its ends exactly where the list is at its own. -/
theorem scrollbar_inside (room : count * most < 2147483648) (sound : l.Sound count most) :
    (l.scrollbar = none ↔ count ≤ l.rows) ∧
    ∀ row len, l.scrollbar = some (row, len) → 0 ≤ row ∧ 1 ≤ len ∧ row + len ≤ l.rows ∧ (l.top = 0 → row = 0) ∧
      (l.top + l.rows = count → row + len = l.rows) := by
  rw [scrollbar_eq room sound]
  obtain ⟨same, items, rows, sel, top⟩ := sound
  split
  next short => exact ⟨⟨fun _ => short, fun _ => rfl⟩, fun _ _ some_ => absurd some_ (by simp)⟩
  next long =>
    refine ⟨⟨fun none_ => absurd none_ (by simp), fun short => absurd short long⟩, fun row len at_ => ?_⟩
    dsimp only at at_
    have square : (l.rows * l.rows).tdiv count ≤ l.rows := by
      rw [Int.tdiv_eq_ediv_of_nonneg (Int.mul_nonneg (by omega) (by omega))]
      refine Int.ediv_le_of_le_mul (by omega) ?_
      exact Int.mul_le_mul_of_nonneg_left (by omega) (by omega)
    obtain ⟨n, thumb, least, longest⟩ : ∃ n, max ((l.rows * l.rows).tdiv count) 1 = n ∧ 1 ≤ n ∧ n ≤ l.rows :=
      ⟨_, rfl, by omega, by omega⟩
    rw [thumb] at at_
    have place : ∃ m, (l.top * (l.rows - n)).tdiv (count - l.rows) = m ∧ 0 ≤ m ∧ (l.top = 0 → m = 0) ∧
        (l.top + l.rows = count → m = l.rows - n) := by
      refine ⟨_, rfl, Int.tdiv_nonneg (Int.mul_nonneg top.1 (by omega)) (by omega), ?_, ?_⟩
      · intro first
        rw [first, Int.zero_mul, Int.zero_tdiv]
      · intro last
        have whole : l.top = count - l.rows := by omega
        rw [whole, Int.mul_tdiv_cancel_left _ (by omega)]
    obtain ⟨m, place, nonneg, first, last⟩ := place
    rw [place] at at_
    simp only [Option.some.injEq, Prod.mk.injEq] at at_
    obtain ⟨at_, rfl⟩ := at_
    refine ⟨by omega, least, by omega, fun top_ => ?_, fun end_ => ?_⟩
    · have zero := first top_
      omega
    · have full := last end_
      omega

/-- Whatever keys, wheel turns, clicks and heights come to a list of so many items that the items times the rows are an
`int`: the selection is an item, every row of the window that could have an item has one, rows and items name each
other, the next key brings the selection into the window, and the thumb is in its bar and at the ends of it with the
list. -/
theorem list_kept (count rows most : Int) (wrap : Bool) (ops : List ListOp) (some_ : 1 ≤ most ∧ most < 2147483648)
    (room : max count 0 * most < 2147483648) (fits : rows ≤ most)
    (small : ∀ op ∈ ops, op.Small (max count 0) most) :
    let l := ops.foldl TuiList.step { TuiList.init count rows with wrap }
    let n := max count 0
    (0 ≤ l.sel ∧ l.sel < max n 1) ∧
    (∀ row, l.itemAtRow row = if 0 ≤ row ∧ row < min l.rows n then l.top + row else -1) ∧
    (∀ index, 0 ≤ index ∧ index < n → ∀ row, 0 ≤ row ∧ l.rowOfItem index = row ↔ l.itemAtRow row = index) ∧
    (∀ op : ListOp, op.keyed → op.Small n most → 0 ≤ (l.step op).rowOfItem (l.step op).sel) ∧
    (l.scrollbar = none ↔ n ≤ l.rows) ∧
    ∀ row len, l.scrollbar = some (row, len) → 0 ≤ row ∧ 1 ≤ len ∧ row + len ≤ l.rows ∧ (l.top = 0 → row = 0) ∧
      (l.top + l.rows = n → row + len = l.rows) := by
  intro l n
  have items : count < 2147483648 := by
    have least := Int.mul_le_mul_of_nonneg_left some_.1 (show 0 ≤ max count 0 by omega)
    omega
  have start : TuiList.Sound { TuiList.init count rows with wrap } n most := by
    obtain ⟨same, items, rows, sel, top⟩ := (init_sound items fits some_).1
    exact ⟨same, items, rows, sel, top⟩
  have sound : l.Sound n most := run_sound some_ start small
  refine ⟨sound.sel, itemAtRow_eq some_.2 sound, fun index item => rowOfItem_iff some_.2 sound item,
    fun op key step => ?_, scrollbar_inside room sound⟩
  obtain ⟨next, above, below⟩ := keyed_sound some_ sound step key
  rw [rowOfItem_eq some_.2 next next.sel, if_neg (by omega)]
  omega

/-- Ten items of which three are shown, scrolled to the end with the wheel and brought back by a key. -/
theorem list_kept_ten :
    let l := [ListOp.scroll 2, .scroll 2, .scroll 2, .scroll 2].foldl TuiList.step
      { TuiList.init 10 3 with wrap := false }
    l.top = 7 ∧ l.rowOfItem l.sel = -1 ∧ 0 ≤ (l.step (.move 1)).rowOfItem (l.step (.move 1)).sel ∧
      l.scrollbar = some (2, 1) := by
  have wheel : (ListOp.scroll 2).Small (max 10 0) 3 := ⟨by decide, by decide⟩
  have kept := list_kept 10 3 3 false [ListOp.scroll 2, .scroll 2, .scroll 2, .scroll 2] (by decide) (by decide)
    (by decide) (by simpa using wheel)
  exact ⟨by decide +kernel, by decide +kernel, kept.2.2.2.1 (.move 1) trivial ⟨by decide, by decide⟩, by decide +kernel⟩

end RPCortex.Tui
