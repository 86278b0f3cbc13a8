import RPCortex.Lib.Run
import RPCortex.Arena.Blocks

/-! A package that keeps to its payloads: it asks for memory, frees whatever pointers it likes and
writes to what it was given.  The blocks then tile the arena, the payloads are its blocks that are
not free, and a request is served exactly when `arena_largest` says so. -/

namespace RPCortex.PackageHeap

open Lib

/-- The memory, and the payloads that were handed out and not freed, with the sizes asked for. -/
structure Usage where
  bytes : Nat → UInt8
  live : List (UInt32 × UInt32)

inductive Op
  | alloc (n : UInt32)
  | free (p : UInt32)
  | write (p : UInt32) (i : Nat) (v : UInt8)

/-- Enough fuel for every walk. -/
def Arena.fuel (a : Arena) : Nat := a.size.toNat + 1

/-- One step; `none` is a call that does not end. -/
def step (a : Arena) (s : Usage) : Op → Option Usage
  | .alloc n => (arenaAlloc a.fuel a n ⟨s.bytes, []⟩).map fun r =>
      ⟨r.2.bytes, (r.1.map fun p => (p, n)).toList ++ s.live⟩
  | .free p => (arenaFree a.fuel a p ⟨s.bytes, []⟩).map fun h =>
      ⟨h.bytes, s.live.filter fun x => x.1 ≠ p⟩
  | .write p i v => some ⟨store s.bytes (p.toNat + i) [v], s.live⟩

/-- Writes go to payloads. -/
def Honest (s : Usage) : Op → Prop
  | .write p i _ => ∃ x ∈ s.live, x.1 = p ∧ i < x.2.toNat
  | _ => True

/-- An arena that `arena_init` made of an aligned block of memory. -/
def Start (a : Arena) (s : Usage) : Prop :=
  ∃ base size within bytes, 8 ∣ base.toNat ∧
    a = (arenaInit base size within ⟨bytes, []⟩).1 ∧
    s = ⟨(arenaInit base size within ⟨bytes, []⟩).2.bytes, []⟩

/-- What holds of the arena at any moment. -/
structure Tidy (a : Arena) (s : Usage) : Prop where
  tiles : ∃ blocks, Tiles s.bytes a.base.toNat blocks ∧ total blocks = a.size.toNat ∧
    ∀ p, (∃ n, (p, n) ∈ s.live) ↔
      ∃ x ∈ places a.base.toNat blocks, x.2.free = false ∧ p.toNat = x.1 + 8
  inside : ∀ p n, (p, n) ∈ s.live → 8 ∣ p.toNat ∧ a.base.toNat ≤ p.toNat ∧
    p.toNat + n.toNat ≤ a.base.toNat + a.size.toNat
  disjoint : s.live.Pairwise fun x y =>
    x.1.toNat + x.2.toNat ≤ y.1.toNat ∨ y.1.toNat + y.2.toNat ≤ x.1.toNat
  ignored : ∀ p, (∀ n, (p, n) ∉ s.live) → step a s (.free p) = some s
  served : ∀ n, ∃ p h largest, arenaAlloc a.fuel a n ⟨s.bytes, []⟩ = some (p, h) ∧
    arenaLargest a.fuel a ⟨s.bytes, []⟩ = some largest ∧ (p ≠ none ↔ 0 < n ∧ n ≤ largest)
  ends : ∀ op, ∃ t, step a s op = some t

/-! ### Sizes -/

theorem dvd_wanted (n : UInt32) : 8 ∣ (wanted n).toNat := by
  have := toNat_alignDown (n + hdr + 7) (a := 8) (k := 3) rfl
  rw [wanted, this]
  exact Nat.dvd_mul_left 8 _

theorem toNat_wanted {n : UInt32} (small : n.toNat + 15 < 2 ^ 32) :
    (wanted n).toNat = (n.toNat + 15) / 8 * 8 := by
  have eight : (8 : UInt32).toNat = 8 := rfl
  have seven : (7 : UInt32).toNat = 7 := rfl
  have sum : (n + hdr + 7).toNat = n.toNat + 15 := by
    rw [UInt32.toNat_add, UInt32.toNat_add]
    simp only [hdr, eight, seven]
    omega
  rw [wanted, toNat_alignDown (n + hdr + 7) (a := 8) (k := 3) rfl, sum]
  rfl

/-- The rounding is caught where it wraps. -/
theorem wanted_lt_iff (n : UInt32) : wanted n < n ↔ 2 ^ 32 ≤ n.toNat + 15 := by
  have lt := n.toNat_lt
  rw [UInt32.lt_iff_toNat_lt]
  constructor
  · intro less
    by_contra small
    rw [toNat_wanted (by omega)] at less
    omega
  · intro large
    have le : (wanted n).toNat ≤ (n + hdr + 7).toNat := toNat_alignDown_le (n + hdr + 7) 8
    have eight : (8 : UInt32).toNat = 8 := rfl
    have seven : (7 : UInt32).toNat = 7 := rfl
    rw [UInt32.toNat_add, UInt32.toNat_add] at le
    simp only [hdr, eight, seven] at le
    omega

/-! ### The invariant -/

/-- The blocks tile the arena and the payloads are those of the blocks that are not free. -/
structure Inv (a : Arena) (s : Usage) (blocks : List Block) : Prop where
  aligned : 8 ∣ a.base.toNat
  placed : a.size ≠ 0 → 8 ≤ a.base.toNat
  tiles : Tiles s.bytes a.base.toNat blocks
  whole : total blocks = a.size.toNat
  payload : ∀ p n, (p, n) ∈ s.live → ∃ x ∈ places a.base.toNat blocks, x.2.free = false ∧
    p.toNat = x.1 + 8 ∧ n.toNat + 8 ≤ x.2.size
  taken : ∀ x ∈ places a.base.toNat blocks, x.2.free = false →
    ∃ p n, (p, n) ∈ s.live ∧ p.toNat = x.1 + 8
  distinct : (s.live.map Prod.fst).Nodup

variable {a : Arena} {s : Usage} {blocks : List Block} {n p : UInt32}

theorem Inv.small (inv : Inv a s blocks) {x : Nat × Block} (hx : x ∈ places a.base.toNat blocks) :
    x.1 + x.2.size < 2 ^ 32 := by
  have := place_bounds hx
  have := inv.whole
  have := a.within
  omega

theorem Inv.enough (inv : Inv a s blocks) : blocks.length < a.fuel := by
  have := inv.tiles.length_le
  have := inv.whole
  rw [Arena.fuel]
  omega

/-- Walks begin at the first block. -/
theorem position_base (nonempty : a.size ≠ 0) : position a a.base.toNat = some a.base := by
  have : a.size.toNat ≠ 0 := fun h => nonempty (UInt32.toNat_inj.mp h)
  rw [position, if_pos (by omega), UInt32.ofNat_toNat]

/-- What a request finds: nothing that is large enough, or a free block. -/
theorem Inv.alloc_cases (inv : Inv a s blocks) (n : UInt32) :
    (arenaAlloc a.fuel a n ⟨s.bytes, []⟩ = some (none, ⟨s.bytes, []⟩) ∧
      (n = 0 ∨ ∀ x ∈ places a.base.toNat blocks, x.2.free = true → x.2.size < n.toNat + 8)) ∨
    ∃ x ∈ places a.base.toNat blocks, x.2.free = true ∧ n ≠ 0 ∧ n.toNat + 15 < 2 ^ 32 ∧
      (wanted n).toNat ≤ x.2.size ∧
      (∀ y ∈ places a.base.toNat blocks, y.1 < x.1 →
        ¬(y.2.free = true ∧ (wanted n).toNat ≤ y.2.size)) ∧
      arenaAlloc a.fuel a n ⟨s.bytes, []⟩ =
        some (some (UInt32.ofNat x.1 + hdr), take ⟨s.bytes, []⟩ (wanted n) (UInt32.ofNat x.1)) := by
  have whole := inv.whole
  have within := a.within
  unfold arenaAlloc
  by_cases idle : a.size = 0 ∨ n = 0 ∨ wanted n < n
  · refine .inl ⟨if_pos idle, ?_⟩
    rcases idle with none | zero | wraps
    · right
      intro x hx
      have bounds := place_bounds hx
      have least := (inv.tiles.header hx).2.1
      rw [whole, none] at bounds
      have : (0 : UInt32).toNat = 0 := rfl
      omega
    · exact .inl zero
    · right
      intro x hx _
      have bounds := place_bounds hx
      have large := (wanted_lt_iff n).mp wraps
      have sized := (inv.tiles.header hx).2.2
      omega
  · rw [if_neg idle]
    rw [not_or, not_or, wanted_lt_iff] at idle
    obtain ⟨nonempty, nonzero, small⟩ := idle
    have size := toNat_wanted (n := n) (by omega)
    have fit : ∀ x ∈ places a.base.toNat blocks,
        fits ⟨s.bytes, []⟩ (wanted n) (UInt32.ofNat x.1) = true ↔
          x.2.free = true ∧ (wanted n).toNat ≤ x.2.size := by
      intro x hx
      have header := (inv.tiles.header hx).1
      have lt := inv.small hx
      have hsize := header.blockSize (h := ⟨s.bytes, []⟩) (by omega)
      have hfree := header.blockFree (h := ⟨s.bytes, []⟩) (by omega)
      rw [fits, hsize, hfree, decide_eq_true_eq, UInt32.le_iff_toNat_le, toNat_address (by omega)]
      cases x.2.free <;> simp
    rw [← position_base nonempty]
    rcases search_tiles (h := ⟨s.bytes, []⟩) (fits ⟨s.bytes, []⟩ (wanted n)) inv.tiles
      (by rw [whole]) (Nat.le_of_lt inv.enough) with ⟨hs, none⟩ | ⟨x, hx, here, first, hs⟩
    · rw [hs]
      refine .inl ⟨rfl, .inr fun x hx free => ?_⟩
      have sized := (inv.tiles.header hx).2.2
      have unfit : ¬(wanted n).toNat ≤ x.2.size := by
        intro le
        have := none x hx
        rw [(fit x hx).mpr ⟨free, le⟩] at this
        cases this
      rw [size] at unfit
      omega
    · rw [hs]
      obtain ⟨free, le⟩ := (fit x hx).mp here
      refine .inr ⟨x, hx, free, nonzero, by omega, le, fun y hy lt => ?_, rfl⟩
      rw [← fit y hy, first y hy lt]
      exact Bool.false_ne_true

/-- The largest free block among those the walk visits, from `best` on. -/
theorem foldl_largest {h : Heap} {off : Nat} {l : List Block} (tiles : Tiles h.bytes off l)
    (small : off + total l < 2 ^ 32) (best : UInt32) :
    ∃ r, ((places off l).map fun x => UInt32.ofNat x.1).foldl
        (fun best b => if h.blockFree b ≠ 0 ∧ best < h.blockSize b then h.blockSize b else best)
        best = r ∧ best.toNat ≤ r.toNat ∧
      (∀ x ∈ places off l, x.2.free = true → x.2.size ≤ r.toNat) ∧
      (r = best ∨ ∃ x ∈ places off l, x.2.free = true ∧ x.2.size = r.toNat) := by
  induction l generalizing off best with
  | nil => exact ⟨best, rfl, Nat.le_refl _, by simp [places], .inl rfl⟩
  | cons b rest ih =>
    obtain ⟨header, -, -, back⟩ := tiles
    rw [total] at small
    have size := header.blockSize (h := h) (by omega)
    have free := header.blockFree (h := h) (by omega)
    have sizeNat : (UInt32.ofNat b.size).toNat = b.size := toNat_address (by omega)
    have flag : (if b.free then (1 : UInt32) else 0) ≠ 0 ↔ b.free = true := by
      cases b.free <;> decide
    rw [places, List.map_cons, List.foldl_cons, size, free]
    simp only [flag]
    obtain ⟨r, hr, le, all, from_⟩ := ih back (by omega)
      (if b.free = true ∧ best < UInt32.ofNat b.size then UInt32.ofNat b.size else best)
    refine ⟨r, hr, ?_, ?_, ?_⟩
    · refine Nat.le_trans ?_ le
      split
      · rename_i larger
        exact Nat.le_of_lt (UInt32.lt_iff_toNat_lt.mp larger.2)
      · exact Nat.le_refl _
    · intro x hx hfree
      rcases List.mem_cons.mp hx with rfl | hx
      · simp only at hfree ⊢
        refine Nat.le_trans ?_ le
        split
        · exact Nat.le_of_eq sizeNat.symm
        · rename_i smaller
          have : ¬best < UInt32.ofNat b.size := fun lt => smaller ⟨hfree, lt⟩
          rw [UInt32.lt_iff_toNat_lt, sizeNat] at this
          omega
      · exact all x hx hfree
    · rcases from_ with here | ⟨x, hx, found⟩
      · split at here
        · rename_i larger
          right
          exact ⟨(off, b), List.mem_cons_self .., larger.1, by rw [here, sizeNat]⟩
        · exact .inl here
      · exact .inr ⟨x, List.mem_cons_of_mem _ hx, found⟩

/-- `arena_largest` is the boundary of what a request can find. -/
theorem Inv.largest (inv : Inv a s blocks) :
    ∃ largest, arenaLargest a.fuel a ⟨s.bytes, []⟩ = some largest ∧ ∀ n : UInt32, 0 < n →
      (n ≤ largest ↔ ∃ x ∈ places a.base.toNat blocks, x.2.free = true ∧
        n.toNat + 8 ≤ x.2.size) := by
  have whole := inv.whole
  have within := a.within
  unfold arenaLargest
  by_cases none : a.size = 0
  · refine ⟨0, if_pos none, fun n pos => ⟨fun le => ?_, ?_⟩⟩
    · rw [UInt32.le_iff_toNat_le] at le
      rw [UInt32.lt_iff_toNat_lt] at pos
      omega
    · rintro ⟨x, hx, -, -⟩
      have bounds := place_bounds hx
      have least := (inv.tiles.header hx).2.1
      rw [whole, none] at bounds
      have : (0 : UInt32).toNat = 0 := rfl
      omega
  · rw [if_neg none, ← position_base none]
    obtain ⟨r, hr, -, all, from_⟩ := foldl_largest (h := ⟨s.bytes, []⟩) inv.tiles
      (by rw [whole]; exact within) 0
    rw [foldWalk_trail (trail_of_tiles inv.tiles (by rw [whole]))
      (by rw [List.length_map, length_places]; exact Nat.le_of_lt inv.enough), hr]
    refine ⟨_, rfl, fun n pos => ?_⟩
    simp only
    have eight : (8 : UInt32).toNat = 8 := rfl
    have zero : (0 : UInt32).toNat = 0 := rfl
    rw [UInt32.lt_iff_toNat_lt, zero] at pos
    constructor
    · intro le
      split at le
      · rename_i large
        rw [UInt32.lt_iff_toNat_lt] at large
        rw [UInt32.le_iff_toNat_le, UInt32.toNat_sub_of_le _ _ (by
          rw [UInt32.le_iff_toNat_le]; omega)] at le
        simp only [hdr, eight] at le large
        rcases from_ with zero' | ⟨x, hx, free, size⟩
        · rw [zero', zero] at large
          omega
        · exact ⟨x, hx, free, by omega⟩
      · rw [UInt32.le_iff_toNat_le, zero] at le
        omega
    · rintro ⟨x, hx, free, size⟩
      have le := all x hx free
      have large : hdr < r := by
        rw [UInt32.lt_iff_toNat_lt]
        simp only [hdr, eight]
        omega
      rw [if_pos large, UInt32.le_iff_toNat_le, UInt32.toNat_sub_of_le _ _ (by
        rw [UInt32.le_iff_toNat_le]; simp only [hdr, eight]; omega)]
      simp only [hdr, eight]
      omega

/-- The payload of a block. -/
theorem sub_hdr_eq_iff {x : Nat} (small : x + 16 < 2 ^ 32) :
    UInt32.ofNat x = p - hdr ↔ p.toNat = x + 8 := by
  have eight : (8 : UInt32).toNat = 8 := rfl
  have lt := p.toNat_lt
  rw [← UInt32.toNat_inj, toNat_address (by omega), UInt32.toNat_sub]
  simp only [hdr, eight]
  omega

/-- What `arena_free` does: nothing, or the block of a payload is marked and merged. -/
theorem Inv.free_cases (inv : Inv a s blocks) (p : UInt32) :
    (arenaFree a.fuel a p ⟨s.bytes, []⟩ = some ⟨s.bytes, []⟩ ∧ ∀ n, (p, n) ∉ s.live) ∨
    ∃ x ∈ places a.base.toNat blocks, x.2.free = false ∧ p.toNat = x.1 + 8 ∧
      arenaFree a.fuel a p ⟨s.bytes, []⟩ = merge a (UInt32.ofNat x.1) a.fuel
        (Heap.setFree ⟨s.bytes, []⟩ (UInt32.ofNat x.1) 1) := by
  have whole := inv.whole
  have within := a.within
  have small : ∀ x ∈ places a.base.toNat blocks, x.1 + 16 < 2 ^ 32 := by
    intro x hx
    have := inv.small hx
    have := (inv.tiles.header hx).2.1
    omega
  have header : ∀ x ∈ places a.base.toNat blocks,
      Heap.blockFree ⟨s.bytes, []⟩ (UInt32.ofNat x.1) = if x.2.free then 1 else 0 :=
    fun x hx => (inv.tiles.header hx).1.blockFree (h := ⟨s.bytes, []⟩)
      (by have := small x hx; omega)
  by_cases live : ∃ n, (p, n) ∈ s.live
  · obtain ⟨n, hn⟩ := live
    obtain ⟨x, hx, taken, place, -⟩ := inv.payload p n hn
    refine .inr ⟨x, hx, taken, place, ?_⟩
    have bounds := place_bounds hx
    have least := (inv.tiles.header hx).2.1
    have address := (sub_hdr_eq_iff (small x hx)).mpr place
    have zero : (0 : UInt32).toNat = 0 := rfl
    have nonempty : a.size ≠ 0 := by
      intro h
      rw [whole, h] at bounds
      omega
    have ready : ¬(p = 0 ∨ a.size = 0 ∨ p - hdr < a.base ∨ a.base + a.size ≤ p - hdr) := by
      rw [← address, not_or, not_or, not_or, UInt32.lt_iff_toNat_lt, UInt32.le_iff_toNat_le,
        toNat_end, toNat_address (by have := small x hx; omega)]
      refine ⟨?_, nonempty, by omega, by omega⟩
      rintro rfl
      omega
    unfold arenaFree
    rw [if_neg ready, ← position_base nonempty]
    rcases search_tiles (h := ⟨s.bytes, []⟩) (· = p - hdr) inv.tiles
      (by rw [whole]) (Nat.le_of_lt inv.enough) with ⟨-, none⟩ | ⟨y, hy, here, -, hs⟩
    · have := none x hx
      simp [address] at this
    · -- the block that is found is the payload's
      have same : y.1 = x.1 := by
        have := (sub_hdr_eq_iff (p := p) (small y hy)).mp (by simpa using here)
        omega
      obtain rfl := place_unique inv.tiles hy hx same
      rw [hs]
      simp only [header y hy, taken, Bool.false_eq_true, if_false, ne_eq, not_true]
  · refine .inl ⟨?_, fun n hn => live ⟨n, hn⟩⟩
    unfold arenaFree
    by_cases idle : p = 0 ∨ a.size = 0 ∨ p - hdr < a.base ∨ a.base + a.size ≤ p - hdr
    · exact if_pos idle
    · rw [if_neg idle, ← position_base fun h => idle (.inr (.inl h))]
      rcases search_tiles (h := ⟨s.bytes, []⟩) (· = p - hdr) inv.tiles
        (by rw [whole]) (Nat.le_of_lt inv.enough) with ⟨hs, -⟩ | ⟨y, hy, here, -, hs⟩
      · rw [hs]
      · rw [hs]
        have free : y.2.free = true := by
          by_contra taken
          obtain ⟨q, n, hq, place⟩ := inv.taken y hy (Bool.eq_false_iff.mpr taken)
          have := (sub_hdr_eq_iff (p := p) (small y hy)).mp (by simpa using here)
          obtain rfl : q = p := UInt32.toNat_inj.mp (by omega)
          exact live ⟨n, hq⟩
        simp only [header y hy, free, if_true]
        rw [if_pos (by decide)]

/-! ### What the steps preserve -/

theorem mem_places_append {off : Nat} {l r : List Block} {x : Nat × Block} :
    x ∈ places off (l ++ r) ↔ x ∈ places off l ∨ x ∈ places (off + total l) r := by
  rw [places_append, List.mem_append]

theorem mem_places_cons {off : Nat} {b : Block} {r : List Block} {x : Nat × Block} :
    x ∈ places off (b :: r) ↔ x = (off, b) ∨ x ∈ places (off + b.size) r := by
  rw [places, List.mem_cons]

variable {before behind : List Block} {b : Block} {off : Nat}

theorem mem_places_split (hblocks : blocks = before ++ b :: behind)
    (hplace : off = a.base.toNat + total before) : (off, b) ∈ places a.base.toNat blocks := by
  rw [hblocks, mem_places_append, mem_places_cons, ← hplace]
  exact .inr (.inl rfl)

theorem Inv.alloc (inv : Inv a s blocks) (hblocks : blocks = before ++ b :: behind)
    (hplace : off = a.base.toNat + total before) (free : b.free = true) (nonzero : n ≠ 0)
    (small : n.toNat + 15 < 2 ^ 32) (large : (wanted n).toNat ≤ b.size) :
    Inv a ⟨(take ⟨s.bytes, []⟩ (wanted n) (UInt32.ofNat off)).bytes,
      (UInt32.ofNat off + hdr, n) :: s.live⟩
      (before ++ (carve (wanted n).toNat b ++ behind)) := by
  have hx := mem_places_split hblocks hplace
  have fits := inv.small hx
  have whole := inv.whole
  have within := a.within
  have size := toNat_wanted small
  have bounds := place_bounds hx
  have pos : n.toNat ≠ 0 := fun h => nonzero (UInt32.toNat_inj.mp h)
  simp only at fits bounds
  have payload : (UInt32.ofNat off + hdr).toNat = off + 8 := by
    have eight : (8 : UInt32).toNat = 8 := rfl
    have least := (inv.tiles.header hx).2.1
    rw [UInt32.toNat_add, toNat_address (by omega)]
    simp only [hdr, eight] at least ⊢
    omega
  have fresh : ∀ q m, (q, m) ∈ s.live → q.toNat ≠ off + 8 := by
    intro q m hq same
    obtain ⟨y, hy, taken, place, -⟩ := inv.payload q m hq
    obtain rfl := place_unique inv.tiles hy hx (by simp only; omega)
    rw [free] at taken
    cases taken
  have tiles := inv.tiles
  rw [hblocks] at tiles
  have corner : 2 ^ 32 ≤ (wanted n).toNat + 16 → (wanted n).toNat = b.size ∧ behind = [] := by
    intro wraps
    have placed := inv.placed (fun h => by
      rw [h] at whole
      have : (0 : UInt32).toNat = 0 := rfl
      omega)
    have aligned := inv.aligned
    have divides := inv.tiles.total_dvd
    have sum := whole
    rw [hblocks, total_append, total] at sum
    have front := (tiles_append.mp tiles).1.total_dvd
    refine ⟨by omega, ?_⟩
    have long := (tiles_append.mp tiles).2.2.2.2.length_le
    exact List.length_eq_zero_iff.mp (by omega)
  have tiles' := take_tiles (h := ⟨s.bytes, []⟩) tiles hplace (by omega) large (by omega)
    (dvd_wanted n) corner
  obtain ⟨taken, left, carved, sum, marked, enough, free'⟩ := carve_eq large
  rw [carved, List.cons_append] at tiles' ⊢
  have newTotal : total (before ++ taken :: (left ++ behind)) = total blocks := by
    rw [hblocks, total_append, total_append, total, total, total_append]
    omega
  have far : off + taken.size + total left = off + b.size := by omega
  refine ⟨inv.aligned, inv.placed, tiles', newTotal.trans whole, ?_, ?_, ?_⟩
  · intro q m hq
    rcases List.mem_cons.mp hq with hq | hq
    · obtain ⟨rfl, rfl⟩ := Prod.mk.injEq .. ▸ hq
      refine ⟨(off, taken), ?_, marked, payload, by simp only; omega⟩
      rw [mem_places_append, mem_places_cons, ← hplace]
      exact .inr (.inl rfl)
    · obtain ⟨y, hy, taken', place, room⟩ := inv.payload q m hq
      refine ⟨y, ?_, taken', place, room⟩
      rw [hblocks, mem_places_append, mem_places_cons, ← hplace] at hy
      rw [mem_places_append, mem_places_cons, mem_places_append, ← hplace, far]
      rcases hy with hy | rfl | hy
      · exact .inl hy
      · simp only at taken'
        rw [free] at taken'
        cases taken'
      · exact .inr (.inr (.inr hy))
  · intro y hy unfree
    have old : ∀ y ∈ places a.base.toNat blocks, y.2.free = false →
        ∃ q m, (q, m) ∈ (UInt32.ofNat off + hdr, n) :: s.live ∧ q.toNat = y.1 + 8 := by
      intro y hy unfree
      obtain ⟨q, m, hq, place⟩ := inv.taken y hy unfree
      exact ⟨q, m, List.mem_cons_of_mem _ hq, place⟩
    rw [hblocks] at old
    simp only [mem_places_append, mem_places_cons, ← hplace] at old
    rw [mem_places_append, mem_places_cons, mem_places_append, ← hplace, far] at hy
    rcases hy with hy | rfl | hy | hy
    · exact old y (.inl hy) unfree
    · exact ⟨_, n, List.mem_cons_self .., payload⟩
    · have := free' y.2 (mem_of_mem_places hy)
      rw [unfree] at this
      cases this
    · exact old y (.inr (.inr hy)) unfree
  · rw [List.map_cons, List.nodup_cons]
    refine ⟨fun h => ?_, inv.distinct⟩
    obtain ⟨⟨q, m⟩, hq, same⟩ := List.mem_map.mp h
    simp only at same
    exact fresh q m hq (by rw [same, payload])

theorem Inv.free (inv : Inv a s blocks) (hblocks : blocks = before ++ b :: behind)
    (hplace : off = a.base.toNat + total before) (place : p.toNat = off + 8) :
    ∃ h', merge a (UInt32.ofNat off) a.fuel
        (Heap.setFree ⟨s.bytes, []⟩ (UInt32.ofNat off) 1) = some h' ∧
      Inv a ⟨h'.bytes, s.live.filter fun y => y.1 ≠ p⟩
        (before ++ ⟨b.size + total (behind.takeWhile Block.free), true⟩ ::
          behind.dropWhile Block.free) := by
  have hx := mem_places_split hblocks hplace
  have fits := inv.small hx
  have whole := inv.whole
  have within := a.within
  have least := (inv.tiles.header hx).2.1
  have enough := inv.enough
  simp only at fits least
  have tiles := inv.tiles
  rw [hblocks] at tiles
  have sum := whole
  rw [hblocks, total_append, total] at sum
  rw [hblocks, List.length_append, List.length_cons] at enough
  have marked := setFree_tiles (h := ⟨s.bytes, []⟩) tiles hplace (by omega)
  obtain ⟨h', hmerge, tiles'⟩ :=
    merge_tiles (a := a) marked hplace (by omega) (show _ < a.fuel by omega)
  have free : ∀ y ∈ behind.takeWhile Block.free, y.free = true :=
    fun y hy => List.mem_takeWhile_imp hy
  have cut : behind = behind.takeWhile Block.free ++ behind.dropWhile Block.free :=
    List.takeWhile_append_dropWhile.symm
  generalize behind.takeWhile Block.free = frees at cut free tiles' ⊢
  generalize behind.dropWhile Block.free = behind' at cut tiles' ⊢
  obtain rfl := cut
  rw [total_append] at sum
  refine ⟨h', hmerge, inv.aligned, inv.placed, tiles', ?_, ?_, ?_, ?_⟩
  · rw [total_append, total]
    simp only
    omega
  · intro q m hq
    obtain ⟨hq, away⟩ := List.mem_filter.mp hq
    obtain ⟨y, hy, taken, place', room⟩ := inv.payload q m hq
    refine ⟨y, ?_, taken, place', room⟩
    have other : y.1 ≠ off := by
      intro same
      obtain rfl : q = p := UInt32.toNat_inj.mp (by omega)
      simp at away
    rw [hblocks, mem_places_append, mem_places_cons, mem_places_append, ← hplace] at hy
    rw [mem_places_append, mem_places_cons, ← hplace, ← Nat.add_assoc]
    rcases hy with hy | rfl | hy | hy
    · exact .inl hy
    · exact absurd rfl other
    · rw [free y.2 (mem_of_mem_places hy)] at taken
      cases taken
    · exact .inr (.inr hy)
  · intro y hy unfree
    have old := inv.taken y
    rw [hblocks, mem_places_append, mem_places_cons, mem_places_append, ← hplace] at old
    have headers := inv.tiles.header (x := y)
    rw [hblocks, mem_places_append, mem_places_cons, mem_places_append, ← hplace] at headers
    rw [mem_places_append, mem_places_cons, ← hplace, ← Nat.add_assoc] at hy
    have kept : ∀ q m, (q, m) ∈ s.live → q.toNat = y.1 + 8 → y.1 ≠ off →
        ∃ q m, (q, m) ∈ s.live.filter (fun y => y.1 ≠ p) ∧ q.toNat = y.1 + 8 := by
      intro q m hq place' away
      refine ⟨q, m, List.mem_filter.mpr ⟨hq, ?_⟩, place'⟩
      have : q ≠ p := by
        rintro rfl
        omega
      simpa using this
    rcases hy with hy | rfl | hy
    · obtain ⟨q, m, hq, place'⟩ := old (.inl hy) unfree
      have := place_bounds hy
      have := (headers (.inl hy)).2.1
      exact kept q m hq place' (by omega)
    · cases unfree
    · obtain ⟨q, m, hq, place'⟩ := old (.inr (.inr (.inr hy))) unfree
      have := place_bounds hy
      exact kept q m hq place' (by omega)
  · exact inv.distinct.sublist ((List.filter_sublist).map Prod.fst)

theorem Inv.write (inv : Inv a s blocks) {i : Nat} {v : UInt8} (live : (p, n) ∈ s.live)
    (small : i < n.toNat) : Inv a ⟨store s.bytes (p.toNat + i) [v], s.live⟩ blocks := by
  obtain ⟨x, hx, -, place, room⟩ := inv.payload p n live
  refine ⟨inv.aligned, inv.placed, ?_, inv.whole, inv.payload, inv.taken, inv.distinct⟩
  obtain ⟨before, behind, hblocks, hplace⟩ := split_at_place hx
  have tiles := inv.tiles
  have same : ∀ j, j ≠ p.toNat + i → store s.bytes (p.toNat + i) [v] j = s.bytes j := by
    intro j hj
    exact store_outside (by rw [List.length_singleton]; omega)
  rw [hblocks, tiles_append, Tiles, ← hplace] at tiles ⊢
  obtain ⟨front, header, large, aligned, back⟩ := tiles
  exact ⟨front.congr fun j _ hlt => same j (by omega),
    header.congr fun j _ hlt => same j (by omega), large, aligned,
    back.congr fun j hj _ => same j (by omega)⟩

/-- A fresh arena is one block, or has no room for one. -/
theorem Start.inv (start : Start a s) : ∃ blocks, Inv a s blocks ∧ blocks.length ≤ 1 := by
  obtain ⟨base, size, within, bytes, aligned, rfl, rfl⟩ := start
  unfold arenaInit
  by_cases tiny : base = 0 ∨ size < hdr + 8
  · rw [if_pos tiny]
    exact ⟨[], ⟨aligned, fun h => absurd rfl h, trivial, rfl, by simp, by simp [places], by simp⟩,
      Nat.zero_le _⟩
  · rw [if_neg tiny]
    rw [not_or] at tiny
    obtain ⟨nonnull, large⟩ := tiny
    have sixteen : (hdr + 8).toNat = 16 := rfl
    rw [UInt32.lt_iff_toNat_lt, sixteen] at large
    have pos : base.toNat ≠ 0 := fun h => nonnull (UInt32.toNat_inj.mp h)
    have rounded := toNat_alignDown size (a := 8) (k := 3) rfl
    have eight : (2 : Nat) ^ 3 = 8 := rfl
    rw [eight] at rounded
    have header := header_written (h := ⟨bytes, []⟩) (p := base)
      (b := ⟨(alignDown size 8).toNat, true⟩)
    rw [UInt32.ofNat_toNat, if_pos rfl] at header
    refine ⟨[⟨(alignDown size 8).toNat, true⟩], ⟨aligned, fun _ => ?_,
      ⟨header, by simp only; omega, by simp only; omega, trivial⟩, by simp [total], by simp,
      by simp [places], by simp⟩, Nat.le_refl 1⟩
    simp only
    omega

/-- A pointer that is no payload is not among the payloads. -/
theorem filter_away (away : ∀ n, (p, n) ∉ s.live) : (s.live.filter fun x => x.1 ≠ p) = s.live := by
  rw [List.filter_eq_self]
  rintro ⟨q, m⟩ hq
  have : q ≠ p := by
    rintro rfl
    exact away m hq
  simpa using this

theorem Inv.step (inv : Inv a s blocks) {op : Op} {t : Usage} (honest : Honest s op)
    (taken : step a s op = some t) : ∃ blocks', Inv a t blocks' := by
  cases op with
  | alloc n =>
    simp only [PackageHeap.step] at taken
    rcases inv.alloc_cases n with ⟨none, -⟩ | ⟨x, hx, free, nonzero, small, large, -, found⟩
    · rw [none] at taken
      obtain rfl := Option.some.inj taken
      exact ⟨blocks, inv⟩
    · rw [found] at taken
      obtain rfl := Option.some.inj taken
      obtain ⟨before, behind, hblocks, hplace⟩ := split_at_place hx
      exact ⟨_, inv.alloc hblocks hplace free nonzero small large⟩
  | free p =>
    simp only [PackageHeap.step] at taken
    rcases inv.free_cases p with ⟨none, away⟩ | ⟨x, hx, -, place, freed⟩
    · rw [none] at taken
      obtain rfl := Option.some.inj taken
      simp only
      rw [filter_away away]
      exact ⟨blocks, inv⟩
    · obtain ⟨before, behind, hblocks, hplace⟩ := split_at_place hx
      obtain ⟨h', hmerge, inv'⟩ := inv.free hblocks hplace place
      rw [freed, hmerge] at taken
      obtain rfl := Option.some.inj taken
      exact ⟨_, inv'⟩
  | write p i v =>
    obtain rfl := Option.some.inj taken
    obtain ⟨⟨q, n⟩, hq, rfl, small⟩ := honest
    exact ⟨blocks, inv.write hq small⟩

/-! ### What holds in every state -/

theorem Inv.disjoint (inv : Inv a s blocks) : s.live.Pairwise fun x y =>
    x.1.toNat + x.2.toNat ≤ y.1.toNat ∨ y.1.toNat + y.2.toNat ≤ x.1.toNat := by
  have distinct : s.live.Pairwise fun x y => x.1 ≠ y.1 := List.pairwise_map.mp inv.distinct
  refine distinct.imp_of_mem ?_
  rintro ⟨p, n⟩ ⟨q, m⟩ hp hq differ
  obtain ⟨x, hx, -, placeX, roomX⟩ := inv.payload p n hp
  obtain ⟨y, hy, -, placeY, roomY⟩ := inv.payload q m hq
  have away : x.1 ≠ y.1 := by
    intro same
    exact differ (UInt32.toNat_inj.mp (by simp only; omega))
  simp only
  rcases Nat.lt_or_gt_of_ne away with lt | lt
  · have := place_disjoint inv.tiles hx hy lt
    left
    omega
  · have := place_disjoint inv.tiles hy hx lt
    right
    omega

theorem Inv.ignored (inv : Inv a s blocks) (away : ∀ n, (p, n) ∉ s.live) :
    PackageHeap.step a s (.free p) = some s := by
  rcases inv.free_cases p with ⟨none, -⟩ | ⟨x, hx, unfree, place, -⟩
  · simp only [PackageHeap.step]
    rw [none, Option.map_some, filter_away away]
  · obtain ⟨q, n, hq, place'⟩ := inv.taken x hx unfree
    obtain rfl : q = p := UInt32.toNat_inj.mp (by omega)
    exact absurd hq (away n)

theorem Inv.served (inv : Inv a s blocks) (n : UInt32) :
    ∃ p h largest, arenaAlloc a.fuel a n ⟨s.bytes, []⟩ = some (p, h) ∧
      arenaLargest a.fuel a ⟨s.bytes, []⟩ = some largest ∧ (p ≠ none ↔ 0 < n ∧ n ≤ largest) := by
  obtain ⟨largest, hl, boundary⟩ := inv.largest
  have zero : (0 : UInt32).toNat = 0 := rfl
  rcases inv.alloc_cases n with ⟨found, small⟩ | ⟨x, hx, free, nonzero, small, large, -, found⟩
  · refine ⟨none, _, largest, found, hl, ?_⟩
    simp only [ne_eq, not_true, false_iff]
    rintro ⟨pos, le⟩
    rcases small with rfl | small
    · exact absurd pos (by decide)
    · obtain ⟨x, hx, free, room⟩ := (boundary n pos).mp le
      have := small x hx free
      omega
  · refine ⟨some _, _, largest, found, hl, ?_⟩
    have pos : 0 < n := by
      rw [UInt32.lt_iff_toNat_lt, zero]
      exact Nat.pos_of_ne_zero fun h => nonzero (UInt32.toNat_inj.mp h)
    have size := toNat_wanted small
    simp only [ne_eq, reduceCtorEq, not_false_eq_true, true_iff]
    exact ⟨pos, (boundary n pos).mpr ⟨x, hx, free, by omega⟩⟩

theorem Inv.ends (inv : Inv a s blocks) (op : Op) : ∃ t, PackageHeap.step a s op = some t := by
  cases op with
  | alloc n =>
    simp only [PackageHeap.step]
    rcases inv.alloc_cases n with ⟨found, -⟩ | ⟨x, -, -, -, -, -, -, found⟩
    · exact ⟨_, by rw [found]; rfl⟩
    · exact ⟨_, by rw [found]; rfl⟩
  | free p =>
    simp only [PackageHeap.step]
    rcases inv.free_cases p with ⟨freed, -⟩ | ⟨x, hx, -, place, freed⟩
    · exact ⟨_, by rw [freed]; rfl⟩
    · obtain ⟨before, behind, hblocks, hplace⟩ := split_at_place hx
      obtain ⟨h', hmerge, -⟩ := inv.free hblocks hplace place
      exact ⟨_, by rw [freed, hmerge]; rfl⟩
  | write p i v => exact ⟨_, rfl⟩

theorem Inv.tidy (inv : Inv a s blocks) : Tidy a s where
  tiles := by
    refine ⟨blocks, inv.tiles, inv.whole, fun p => ⟨?_, ?_⟩⟩
    · rintro ⟨n, hn⟩
      obtain ⟨x, hx, taken, place, -⟩ := inv.payload p n hn
      exact ⟨x, hx, taken, place⟩
    · rintro ⟨x, hx, taken, place⟩
      obtain ⟨q, n, hq, place'⟩ := inv.taken x hx taken
      obtain rfl : q = p := UInt32.toNat_inj.mp (by omega)
      exact ⟨n, hq⟩
  inside := by
    intro p n hn
    obtain ⟨x, hx, -, place, room⟩ := inv.payload p n hn
    have bounds := place_bounds hx
    rw [inv.whole] at bounds
    have aligned := inv.tiles.aligned inv.aligned hx
    omega
  disjoint := inv.disjoint
  ignored _ := inv.ignored
  served := inv.served
  ends := inv.ends

/-- From `arena_init`, whatever a package asks for and frees, the arena stays tidy. -/
theorem tidy_of_run {s₀ : Usage} (start : Start a s₀) (run : Run (PackageHeap.step a) Honest s₀ s) :
    Tidy a s := by
  obtain ⟨fresh, inv₀, -⟩ := start.inv
  obtain ⟨blocks, inv⟩ := run.invariant (P := fun s => ∃ blocks, Inv a s blocks) ⟨fresh, inv₀⟩
    fun _ _ _ ⟨_, inv⟩ honest taken => inv.step honest taken
  exact inv.tidy

/-- An arena of 64 bytes. -/
def smallArena : Arena × Heap := arenaInit 0x1000 64 (by decide) ⟨fun _ => 0, []⟩

instance (s : Usage) : (op : Op) → Decidable (Honest s op)
  | .write p i _ => inferInstanceAs (Decidable (∃ x ∈ s.live, x.1 = p ∧ i < x.2.toNat))
  | .alloc _ | .free _ => inferInstanceAs (Decidable True)

/-- Two payloads, the second freed twice, and a write to the first. -/
def smallUse : List Op :=
  [.alloc 5, .alloc 9, .free 0x1018, .free 0x1018, .write 0x1008 4 0xFF]

theorem tidy_of_run_small :
    Tidy smallArena.1 ((exec (PackageHeap.step smallArena.1) ⟨smallArena.2.bytes, []⟩ smallUse).get
      (by decide +kernel)) :=
  tidy_of_run ⟨0x1000, 64, by decide, fun _ => 0, by decide, rfl, rfl⟩
    (.of_exec_get _ (by decide +kernel))

/-- `arena_init` does not align its block: at 0x1004 the first payload is four bytes off. -/
theorem not_all_payloads_aligned :
    ¬∀ (base size : UInt32) (within : base.toNat + size.toNat < 2 ^ 32) (ops : List Op) (s : Usage),
      exec (step (arenaInit base size within ⟨fun _ => 0, []⟩).1)
        ⟨(arenaInit base size within ⟨fun _ => 0, []⟩).2.bytes, []⟩ ops = some s →
      ∀ p n, (p, n) ∈ s.live → 8 ∣ p.toNat := by
  intro always
  have off := always 0x1004 64 (by decide) [.alloc 1] _ (Option.some_get (by decide +kernel)).symm
    0x100c 1 (by decide +kernel)
  exact absurd off (by decide)

end RPCortex.PackageHeap
