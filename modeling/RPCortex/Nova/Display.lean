import Mathlib
import RPCortex.Nova.Canvas

/-! The OLED panel of `display.cpp`.  A frame goes to the glass page by page, without the pages that the frame before
had the same. -/

namespace RPCortex.Nova

/-! ### The panel -/

/-- The controller: what it shows by page and column, and where the next byte goes. -/
structure Panel where
  ram : Nat → Nat → UInt8
  page : Nat
  column : Nat
  on : Bool

namespace Panel

def command (p : Panel) (b : UInt8) : Panel :=
  if 0xb0 ≤ b ∧ b ≤ 0xb7 then { p with page := b.toNat - 0xb0 }
  else if b < 0x10 then { p with column := p.column / 16 * 16 + b.toNat }
  else if b < 0x20 then { p with column := (b.toNat - 0x10) * 16 + p.column % 16 }
  else if b = 0xae then { p with on := false }
  else if b = 0xaf then { p with on := true }
  else p

def data (p : Panel) (b : UInt8) : Panel :=
  { p with
    ram := fun page column => if page = p.page ∧ column = p.column then b else p.ram page column
    column := p.column + 1 }

/-- One transmission: the control byte says what the others are. -/
def take (p : Panel) : List UInt8 → Panel
  | [] => p
  | control :: rest =>
    if control = 0x00 then rest.foldl command p
    else if control = 0x40 then rest.foldl data p
    else p

end Panel

/-- How a write ends.  One that fails leaves any panel. -/
structure Answer where
  ok : Bool
  left : Panel

/-- The panel on its bus, with the answers to the writes by their number. -/
structure Bus where
  panel : Panel
  answers : Nat → Answer
  sent : Nat

/-- `fw_i2c_write`. -/
def Bus.write (b : Bus) (frame : List UInt8) : Bool × Bus :=
  ((b.answers b.sent).ok,
    { b with
      panel := if (b.answers b.sent).ok then b.panel.take frame else (b.answers b.sent).left
      sent := b.sent + 1 })

/-! ### The driver -/

/-- `Display`, without the bus and the address it has found the panel at.  The offset is two columns on the SH1106. -/
structure Display where
  ready : Bool
  colOffset : UInt8
  lastPages : Nat
  haveLast : Bool
  fails : Nat
  last : List UInt8

namespace Display

def invalidate (d : Display) : Display := { d with haveLast := false }

/-- `note_fail`. -/
def noteFail (d : Display) : Display :=
  let fails := (d.fails + 1) % 2 ^ 32
  if fails < 30 then { d with haveLast := false, fails }
  else { d with haveLast := false, fails, ready := false }

/-- `power`: what comes of the command is not looked at. -/
def power (on : Bool) (s : Display × Bus) : Display × Bus :=
  if s.1.ready then (s.1.invalidate, (s.2.write [0x00, if on then 0xaf else 0xae]).2) else s

/-- The bytes of a page. -/
def row (w page : Nat) (bytes : List UInt8) : List UInt8 := (bytes.drop (page * w)).take w

/-- The commands in front of a page. -/
def setPage (colOffset : UInt8) (page : Nat) : List UInt8 :=
  [0x00, 0xb0 ||| page.toUInt8, colOffset &&& 0x0f, (0x10 : UInt8) ||| (colOffset >>> 4)]

/-- The loop of `show` over `n` pages from `page`: whether it came to its end. -/
def showPages (buf : List UInt8) (w : Nat) : (n page : Nat) → Display × Bus → Bool × Display × Bus
  | 0, _, s => (true, s)
  | n + 1, page, (d, b) =>
    let src := row w page buf
    if d.haveLast ∧ row w page d.last = src then showPages buf w n (page + 1) (d, b)
    else
      let address := b.write (setPage d.colOffset page)
      if !address.1 then (false, d.noteFail, address.2)
      else
        let sent := address.2.write (0x40 :: src)
        if !sent.1 then (false, d.noteFail, sent.2)
        else showPages buf w n (page + 1) ({ d with fails := 0, lastPages := d.lastPages + 1 }, sent.2)

/-- `show`. -/
def show_ (c : Canvas) (s : Display × Bus) : Display × Bus :=
  let d := { s.1 with lastPages := 0 }
  if !d.ready then (d, s.2)
  else
    match c.buf with
    | none => (d, s.2)
    | some buf =>
      let pages := (c.h + 7).tdiv 8
      if c.w > 128 ∨ pages > 8 then (d, s.2)
      else
        let sent := showPages buf c.w.toNat pages.toNat 0 (d, s.2)
        if !sent.1 then sent.2
        else
          let size := c.w.toNat * pages.toNat
          ({ sent.2.1 with last := buf.take size ++ sent.2.1.last.drop size, haveLast := true }, sent.2.2)

end Display

/-- A call of the driver. -/
inductive Call where
  | show_ (c : Canvas)
  | power (on : Bool)
  | invalidate

def Call.run (s : Display × Bus) : Call → Display × Bus
  | .show_ c => Display.show_ c s
  | .power on => Display.power on s
  | .invalidate => (s.1.invalidate, s.2)

/-! ### What a write does -/

variable {p : Panel} {b : Bus} {off : UInt8} {w page n : Nat} {bytes buf : List UInt8}

/-- The page of the panel shows the bytes. -/
def Panel.Holds (p : Panel) (off : UInt8) (page : Nat) (bytes : List UInt8) : Prop :=
  ∀ x (h : x < bytes.length), p.ram page (off.toNat + x) = bytes[x]

theorem command_page {c : UInt8} (is : 0xb0 ≤ c ∧ c ≤ 0xb7) : p.command c = { p with page := c.toNat - 0xb0 } :=
  if_pos is

theorem command_low {c : UInt8} (is : c < 0x10) :
    p.command c = { p with column := p.column / 16 * 16 + c.toNat } := by
  have other : ¬(0xb0 ≤ c ∧ c ≤ 0xb7) := fun both =>
    absurd (UInt8.lt_of_le_of_lt both.1 is) (by decide)
  rw [Panel.command, if_neg other, if_pos is]

theorem command_high {c : UInt8} (from_ : ¬c < 0x10) (is : c < 0x20) :
    p.command c = { p with column := (c.toNat - 0x10) * 16 + p.column % 16 } := by
  have other : ¬(0xb0 ≤ c ∧ c ≤ 0xb7) := fun both =>
    absurd (UInt8.lt_of_le_of_lt both.1 is) (by decide)
  rw [Panel.command, if_neg other, if_neg from_, if_pos is]

theorem setPage_page (i : Fin 8) : (0xb0 ≤ 0xb0 ||| i.val.toUInt8 ∧ 0xb0 ||| i.val.toUInt8 ≤ 0xb7) ∧
    (0xb0 ||| i.val.toUInt8).toNat - 0xb0 = i.val := by
  revert i
  decide

theorem setPage_column (o : Fin 256) :
    (o.val.toUInt8 &&& 0x0f < 0x10 ∧ (o.val.toUInt8 &&& 0x0f).toNat = o.val % 16) ∧
      (¬(0x10 : UInt8) ||| (o.val.toUInt8 >>> 4) < (0x10 : UInt8) ∧
        (0x10 : UInt8) ||| (o.val.toUInt8 >>> 4) < (0x20 : UInt8)) ∧
      ((0x10 : UInt8) ||| (o.val.toUInt8 >>> 4)).toNat - 0x10 = o.val / 16 := by
  revert o
  decide +kernel

theorem take_setPage (known : page < 8) :
    p.take (Display.setPage off page) = { p with page, column := off.toNat } := by
  obtain ⟨isPage, toPage⟩ := setPage_page ⟨page, known⟩
  obtain ⟨⟨isLow, toLow⟩, ⟨notLow, isHigh⟩, toHigh⟩ := setPage_column ⟨off.toNat, off.toNat_lt⟩
  rw [show off.toNat.toUInt8 = off from UInt8.ofNat_toNat] at isLow toLow notLow isHigh toHigh
  have column : off.toNat / 16 * 16 + (p.column / 16 * 16 + off.toNat % 16) % 16 = off.toNat := by omega
  rw [Display.setPage, Panel.take, if_pos rfl, List.foldl_cons, List.foldl_cons, List.foldl_cons, List.foldl_nil,
    command_page isPage, command_low isLow, command_high notLow isHigh, toPage, toLow, toHigh]
  simp only [column]

/-- A run of data bytes moves the column, and leaves the other pages. -/
theorem foldl_data : (bytes.foldl Panel.data p).page = p.page ∧
    (∀ i, i ≠ p.page → (bytes.foldl Panel.data p).ram i = p.ram i) ∧
    (∀ j < p.column, (bytes.foldl Panel.data p).ram p.page j = p.ram p.page j) ∧
    ∀ x (h : x < bytes.length), (bytes.foldl Panel.data p).ram p.page (p.column + x) = bytes[x] := by
  induction bytes generalizing p with
  | nil => exact ⟨rfl, fun _ _ => rfl, fun _ _ => rfl, fun _ h => absurd h (Nat.not_lt_zero _)⟩
  | cons b bytes ih =>
    obtain ⟨page, others, before, shown⟩ := @ih (p.data b)
    rw [List.foldl_cons]
    refine ⟨page, fun i ne => ?_, fun j lt => ?_, fun x h => ?_⟩
    · rw [others i ne]
      funext j
      exact if_neg fun both => ne both.1
    · exact (before j (Nat.lt_succ_of_lt lt)).trans (if_neg fun both => (Nat.ne_of_lt lt) both.2)
    · cases x with
      | zero => exact (before p.column (Nat.lt_succ_self _)).trans (if_pos ⟨rfl, rfl⟩)
      | succ x =>
        have next := shown x (Nat.lt_of_succ_lt_succ h)
        rw [show p.column + (x + 1) = (p.data b).column + x by simp only [Panel.data]; omega]
        exact next

/-! ### The frames -/

theorem write_takes {frame : List UInt8} (ok : (b.write frame).1 = true) :
    (b.write frame).2.panel = b.panel.take frame := if_pos ok

/-- Both writes of a page that are taken put its bytes there and leave the other pages. -/
theorem write_page (known : page < 8) (address : (b.write (Display.setPage off page)).1 = true)
    (sent : ((b.write (Display.setPage off page)).2.write (0x40 :: bytes)).1 = true) :
    ((b.write (Display.setPage off page)).2.write (0x40 :: bytes)).2.panel.Holds off page bytes ∧
      ∀ i, i ≠ page →
        ((b.write (Display.setPage off page)).2.write (0x40 :: bytes)).2.panel.ram i = b.panel.ram i := by
  have panel : ((b.write (Display.setPage off page)).2.write (0x40 :: bytes)).2.panel =
      bytes.foldl Panel.data { b.panel with page, column := off.toNat } := by
    rw [write_takes sent, write_takes address, take_setPage known, Panel.take, if_neg (by decide), if_pos rfl]
  obtain ⟨-, others, -, shown⟩ := @foldl_data { b.panel with page, column := off.toNat } bytes
  rw [panel]
  exact ⟨shown, others⟩

namespace Display

variable {s : Display × Bus}

theorem showPages_succ (d : Display) (b : Bus) : showPages buf w (n + 1) page (d, b) =
    if d.haveLast ∧ row w page d.last = row w page buf then showPages buf w n (page + 1) (d, b)
    else if !(b.write (setPage d.colOffset page)).1 then
      (false, d.noteFail, (b.write (setPage d.colOffset page)).2)
    else if !((b.write (setPage d.colOffset page)).2.write (0x40 :: row w page buf)).1 then
      (false, d.noteFail, ((b.write (setPage d.colOffset page)).2.write (0x40 :: row w page buf)).2)
    else showPages buf w n (page + 1) ({ d with fails := 0, lastPages := d.lastPages + 1 },
      ((b.write (setPage d.colOffset page)).2.write (0x40 :: row w page buf)).2) := rfl

/-- What the driver knows of the panel: where it has a frame, the panel shows that. -/
def Inv (w pages : Nat) (s : Display × Bus) : Prop :=
  s.1.haveLast = true → ∀ page < pages, s.2.panel.Holds s.1.colOffset page (row w page s.1.last)

theorem showPages_false : (showPages buf w n page s).1 = false → (showPages buf w n page s).2.1.haveLast = false := by
  induction n generalizing page s with
  | zero => exact fun off => nomatch off
  | succ n ih =>
    obtain ⟨d, b⟩ := s
    rw [showPages_succ]
    split
    · exact ih
    split
    · intro _
      unfold noteFail
      dsimp only
      split <;> rfl
    split
    · intro _
      unfold noteFail
      dsimp only
      split <;> rfl
    · exact ih

/-- The pages that are sent or the same are those of the buffer, and the others are left. -/
theorem showPages_true (inv : s.1.haveLast = true → ∀ i, page ≤ i → i < page + n →
      s.2.panel.Holds s.1.colOffset i (row w i s.1.last)) (known : page + n ≤ 8)
    (on : (showPages buf w n page s).1 = true) :
    (showPages buf w n page s).2.1.colOffset = s.1.colOffset ∧
      (showPages buf w n page s).2.1.ready = s.1.ready ∧
      (∀ i < page, (showPages buf w n page s).2.2.panel.ram i = s.2.panel.ram i) ∧
      ∀ i, page ≤ i → i < page + n →
        (showPages buf w n page s).2.2.panel.Holds s.1.colOffset i (row w i buf) := by
  induction n generalizing page s with
  | zero => exact ⟨rfl, rfl, fun _ _ => rfl, fun i from_ upto => absurd from_ (by omega)⟩
  | succ n ih =>
    obtain ⟨d, b⟩ := s
    rw [showPages_succ] at on ⊢
    split at on
    · rename_i same
      rw [if_pos same]
      obtain ⟨off, ready, before, shown⟩ := @ih (page + 1) (d, b)
        (fun have_ i from_ upto => inv have_ i (by omega) (by omega)) (by omega) on
      refine ⟨off, ready, fun i lt => before i (by omega), fun i from_ upto => ?_⟩
      rcases Nat.eq_or_lt_of_le from_ with rfl | gt
      · -- the page in the panel is the one the driver has left out
        intro x h
        have here := inv same.1 page (Nat.le_refl _) (by omega)
        rw [same.2] at here
        rw [before page (Nat.lt_succ_self _)]
        exact here x h
      · exact shown i gt (by omega)
    · rename_i differs
      rw [if_neg differs]
      split at on
      · cases on
      rename_i address
      rw [if_neg address]
      split at on
      · cases on
      rename_i sent
      rw [if_neg sent]
      simp only [Bool.not_eq_true', Bool.not_eq_false] at address sent
      obtain ⟨here, others⟩ := write_page (by omega) address sent
      obtain ⟨off, ready, before, shown⟩ := @ih (page + 1) (_, _) (fun have_ i from_ upto => by
        have kept := inv have_ i (by omega) (by omega)
        intro x h
        rw [others i (by omega)]
        exact kept x h) (by omega) on
      refine ⟨off, ready, fun i lt => ?_, fun i from_ upto => ?_⟩
      · rw [before i (by omega), others i (by omega)]
      rcases Nat.eq_or_lt_of_le from_ with rfl | gt
      · intro x h
        rw [before page (Nat.lt_succ_self _)]
        exact here x h
      · exact shown i gt (by omega)

/-- The pages that the driver does not know to be there already. -/
def differing (d : Display) (buf : List UInt8) (w page n : Nat) : List Nat :=
  (List.range' page n).filter fun i => !(d.haveLast && decide (row w i d.last = row w i buf))

/-- Two writes for each of these, and none for the others. -/
theorem showPages_sent (on : (showPages buf w n page s).1 = true) :
    (showPages buf w n page s).2.2.sent = s.2.sent + 2 * (differing s.1 buf w page n).length := by
  induction n generalizing page s with
  | zero => rfl
  | succ n ih =>
    obtain ⟨d, b⟩ := s
    unfold differing
    rw [List.range'_succ]
    rw [showPages_succ] at on ⊢
    split at on
    · rename_i same
      rw [if_pos same, ih on, List.filter_cons_of_neg (by simp [same])]
      rfl
    rename_i differs
    rw [if_neg differs]
    split at on
    · cases on
    rename_i address
    rw [if_neg address]
    split at on
    · cases on
    rename_i sent
    rw [if_neg sent, ih on, List.filter_cons_of_pos (by simpa [imp_iff_not_or] using differs), List.length_cons]
    simp only [Bus.write, differing]
    omega

/-- Where every write is taken, the pages come to their end. -/
theorem showPages_clean (clean : ∀ i, s.2.sent ≤ i → i < (showPages buf w n page s).2.2.sent →
    (s.2.answers i).ok = true) : (showPages buf w n page s).1 = true := by
  induction n generalizing page s with
  | zero => rfl
  | succ n ih =>
    obtain ⟨d, b⟩ := s
    rw [showPages_succ] at clean ⊢
    split
    · rename_i same
      rw [if_pos same] at clean
      exact ih clean
    rename_i differs
    rw [if_neg differs] at clean
    split
    · rename_i address
      rw [if_pos address] at clean
      have taken : (b.write (setPage d.colOffset page)).1 = true := clean b.sent (Nat.le_refl _) (Nat.lt_succ_self _)
      rw [taken] at address
      cases address
    rename_i address
    rw [if_neg address] at clean
    split
    · rename_i sent
      rw [if_pos sent] at clean
      have taken : ((b.write (setPage d.colOffset page)).2.write (0x40 :: row w page buf)).1 = true :=
        clean (b.sent + 1) (Nat.le_succ _) (Nat.lt_succ_self _)
      rw [taken] at sent
      cases sent
    · rename_i sent
      rw [if_neg sent] at clean
      refine ih fun i from_ upto => clean i (Nat.le_trans ?_ from_) upto
      simp only [Bus.write]
      omega

/-! ### Runs -/

/-- A canvas of the panel's size, which is one that the driver knows. -/
structure Sized (w h : Int) (c : Canvas) (buf : List UInt8) : Prop where
  wide : c.w = w
  high : c.h = h
  buffer : c.buf = some buf
  known : 0 ≤ w ∧ w ≤ 128 ∧ 0 ≤ h ∧ h ≤ 64
  holds : buf.length = w.toNat * ((h + 7).tdiv 8).toNat

variable {c : Canvas} {wide high : Int}

/-- The panel shows the buffer of a canvas. -/
def Shows (w h : Int) (buf : List UInt8) (s : Display × Bus) : Prop :=
  ∀ page < ((h + 7).tdiv 8).toNat, s.2.panel.Holds s.1.colOffset page (row w.toNat page buf)

theorem row_snapshot {pages : Nat} (lt : page < pages) (holds : buf.length = w * pages) :
    row w page (buf.take (w * pages) ++ bytes.drop (w * pages)) = row w page buf := by
  have whole : page * w + w ≤ w * pages := by
    calc page * w + w = w * (page + 1) := by ring
      _ ≤ w * pages := Nat.mul_le_mul_left w lt
  rw [List.take_of_length_le (by omega), row, row, List.drop_append_of_le_length (by omega),
    List.take_append_of_le_length (by rw [List.length_drop]; omega)]

/-- What a ready driver does with a canvas of the panel's size. -/
theorem show_sized (sized : Sized wide high c buf) (ready : s.1.ready = true) :
    show_ c s =
      let sent := showPages buf wide.toNat ((high + 7).tdiv 8).toNat 0 ({ s.1 with lastPages := 0 }, s.2)
      if !sent.1 then sent.2
      else
        let size := wide.toNat * ((high + 7).tdiv 8).toNat
        ({ sent.2.1 with last := buf.take size ++ sent.2.1.last.drop size, haveLast := true }, sent.2.2) := by
  have pages : ¬(wide > 128 ∨ (high + 7).tdiv 8 > 8) := by
    obtain ⟨-, le, from_, upto⟩ := sized.known
    rw [Int.tdiv_eq_ediv_of_nonneg (by omega)]
    omega
  unfold show_
  simp only [ready, sized.buffer, sized.wide, sized.high, Bool.not_true, Bool.false_eq_true, if_false, if_neg pages]

/-- With its writes taken, a canvas is on the panel and known to be. -/
theorem show_clean (sized : Sized wide high c buf) (ready : s.1.ready = true)
    (inv : Inv wide.toNat ((high + 7).tdiv 8).toNat s)
    (on : (showPages buf wide.toNat ((high + 7).tdiv 8).toNat 0 ({ s.1 with lastPages := 0 }, s.2)).1 = true) :
    Shows wide high buf (show_ c s) ∧ Inv wide.toNat ((high + 7).tdiv 8).toNat (show_ c s) := by
  have known : 0 + ((high + 7).tdiv 8).toNat ≤ 8 := by
    obtain ⟨-, -, from_, upto⟩ := sized.known
    rw [Int.tdiv_eq_ediv_of_nonneg (by omega)]
    omega
  obtain ⟨off, -, -, shown⟩ := @showPages_true wide.toNat 0 _ buf ({ s.1 with lastPages := 0 }, s.2)
    (fun have_ i _ upto => inv have_ i (by omega)) known on
  rw [show_sized sized ready]
  dsimp only
  rw [on, if_neg (by decide)]
  have shows_ : Shows wide high buf
      ({ (showPages buf wide.toNat ((high + 7).tdiv 8).toNat 0 ({ s.1 with lastPages := 0 }, s.2)).2.1 with
          last := buf.take (wide.toNat * ((high + 7).tdiv 8).toNat) ++ (showPages buf wide.toNat
            ((high + 7).tdiv 8).toNat 0 ({ s.1 with lastPages := 0 }, s.2)).2.1.last.drop
              (wide.toNat * ((high + 7).tdiv 8).toNat)
          haveLast := true },
        (showPages buf wide.toNat ((high + 7).tdiv 8).toNat 0 ({ s.1 with lastPages := 0 }, s.2)).2.2) := by
    intro page lt
    dsimp only
    rw [off]
    exact shown page (Nat.zero_le _) (by omega)
  refine ⟨shows_, fun _ page lt => ?_⟩
  dsimp only
  rw [row_snapshot lt sized.holds]
  exact shows_ page lt

theorem run_inv (call : Call) (sized : ∀ c, call = .show_ c → ∃ buf, Sized wide high c buf)
    (inv : Inv wide.toNat ((high + 7).tdiv 8).toNat s) :
    Inv wide.toNat ((high + 7).tdiv 8).toNat (call.run s) := by
  cases call with
  | show_ c =>
    obtain ⟨buf, sized⟩ := sized c rfl
    rw [Call.run]
    by_cases ready : s.1.ready = true
    · cases on : (showPages buf wide.toNat ((high + 7).tdiv 8).toNat 0 ({ s.1 with lastPages := 0 }, s.2)).1 with
      | true => exact (show_clean sized ready inv on).2
      | false =>
        rw [show_sized sized ready]
        dsimp only
        rw [on, if_pos (by decide)]
        intro have_
        rw [showPages_false on] at have_
        cases have_
    · unfold show_
      rw [if_pos (by simpa using ready)]
      exact inv
  | power on =>
    rw [Call.run, power]
    split
    · exact fun have_ => nomatch have_
    · exact inv
  | invalidate => exact fun have_ => nomatch have_

theorem foldl_inv (calls : List Call) (sized : ∀ c, .show_ c ∈ calls → ∃ buf, Sized wide high c buf)
    (inv : Inv wide.toNat ((high + 7).tdiv 8).toNat s) :
    Inv wide.toNat ((high + 7).tdiv 8).toNat (calls.foldl Call.run s) := by
  induction calls generalizing s with
  | nil => exact inv
  | cons call calls ih =>
    exact ih (fun c mem => sized c (List.mem_cons_of_mem _ mem))
      (run_inv call (fun c eq => sized c (eq ▸ List.mem_cons_self)) inv)

/-- The panel shows the last frame: after any calls, a canvas that a ready driver sends without a failed write is on
the panel, and only its pages that differ from those known to be there were sent. -/
theorem show_shows (calls : List Call) (fresh : s.1.haveLast = false)
    (sized : ∀ c, .show_ c ∈ calls → ∃ buf, Sized wide high c buf) (now : Sized wide high c buf)
    (ready : (calls.foldl Call.run s).1.ready = true)
    (clean : ∀ i, (calls.foldl Call.run s).2.sent ≤ i → i < (show_ c (calls.foldl Call.run s)).2.sent →
      ((calls.foldl Call.run s).2.answers i).ok = true) :
    Shows wide high buf (show_ c (calls.foldl Call.run s)) ∧
      (show_ c (calls.foldl Call.run s)).2.sent = (calls.foldl Call.run s).2.sent + 2 *
        (differing (calls.foldl Call.run s).1 buf wide.toNat 0 ((high + 7).tdiv 8).toNat).length := by
  have inv := foldl_inv calls sized
    (show Inv wide.toNat ((high + 7).tdiv 8).toNat s from fun have_ => by rw [fresh] at have_; cases have_)
  generalize calls.foldl Call.run s = t at ready clean inv ⊢
  have on : (showPages buf wide.toNat ((high + 7).tdiv 8).toNat 0 ({ t.1 with lastPages := 0 }, t.2)).1 = true := by
    refine showPages_clean fun i from_ upto => clean i from_ ?_
    rw [show_sized now ready]
    dsimp only
    split <;> exact upto
  refine ⟨(show_clean now ready inv on).1, ?_⟩
  rw [show_sized now ready]
  dsimp only
  rw [on, if_neg (by decide)]
  exact showPages_sent on

/-- A panel of eight columns and one page, on a bus that takes every write. -/
def blankBus : Bus where
  panel := ⟨fun _ _ => 0, 0, 0, true⟩
  answers := fun _ => ⟨true, ⟨fun _ _ => 0, 0, 0, true⟩⟩
  sent := 0

/-- A driver that has just begun. -/
def begun : Display where
  ready := true
  colOffset := 2
  lastPages := 0
  haveLast := false
  fails := 0
  last := List.replicate 1024 0

def stripes (b : UInt8) : Canvas := ⟨some (List.replicate 8 b), 8, 8⟩

theorem stripes_sized (b : UInt8) : Sized 8 8 (stripes b) (List.replicate 8 b) :=
  ⟨rfl, rfl, rfl, by decide, List.length_replicate⟩

theorem show_shows_twice :
    Shows 8 8 (List.replicate 8 0x55) (show_ (stripes 0x55) ([.show_ (stripes 0xAA)].foldl Call.run (begun, blankBus))) ∧
      (show_ (stripes 0x55) ([.show_ (stripes 0xAA)].foldl Call.run (begun, blankBus))).2.sent =
        ([.show_ (stripes 0xAA)].foldl Call.run (begun, blankBus)).2.sent + 2 *
          (differing ([.show_ (stripes 0xAA)].foldl Call.run (begun, blankBus)).1 (List.replicate 8 0x55)
            (8 : Int).toNat 0 (((8 : Int) + 7).tdiv 8).toNat).length :=
  show_shows [.show_ (stripes 0xAA)] rfl
    (fun c mem => by
      obtain rfl : c = stripes 0xAA := by simpa using mem
      exact ⟨_, stripes_sized 0xAA⟩)
    (stripes_sized 0x55) (by decide) (fun _ _ _ => rfl)

end Display

end RPCortex.Nova
