import RPCortex.Arena.Heap

/-! Blocks that tile the arena.  A list of blocks tiles memory from an address on when their headers
stand where the blocks before them end, and every walk of the allocator then visits these blocks. -/

namespace RPCortex.PackageHeap

open Lib

/-- What a header says. -/
structure Block where
  size : Nat
  free : Bool

/-- The header at `off` is that of the block. -/
structure Header (m : Nat → UInt8) (off : Nat) (b : Block) : Prop where
  size : Codec.u32.read m off = UInt32.ofNat b.size
  free : Codec.u32.read m (off + 4) = if b.free then 1 else 0

/-- The bytes that the blocks take. -/
def total : List Block → Nat
  | [] => 0
  | b :: rest => b.size + total rest

/-- The blocks stand in memory one behind the other, from `off` on. -/
def Tiles (m : Nat → UInt8) : Nat → List Block → Prop
  | _, [] => True
  | off, b :: rest => Header m off b ∧ 16 ≤ b.size ∧ 8 ∣ b.size ∧ Tiles m (off + b.size) rest

/-- The blocks with their addresses. -/
def places : Nat → List Block → List (Nat × Block)
  | _, [] => []
  | off, b :: rest => (off, b) :: places (off + b.size) rest

variable {m m' : Nat → UInt8} {off : Nat} {b c : Block} {l r : List Block} {x y : Nat × Block}

@[simp] theorem total_append : total (l ++ r) = total l + total r := by
  induction l with
  | nil => simp [total]
  | cons b l ih =>
    rw [List.cons_append, total, total, ih]
    omega

theorem tiles_append :
    Tiles m off (l ++ r) ↔ Tiles m off l ∧ Tiles m (off + total l) r := by
  induction l generalizing off with
  | nil => simp [Tiles, total]
  | cons b l ih =>
    rw [List.cons_append, Tiles, Tiles, ih, total, Nat.add_assoc]
    tauto

theorem places_append : places off (l ++ r) = places off l ++ places (off + total l) r := by
  induction l generalizing off with
  | nil => rfl
  | cons b l ih => rw [List.cons_append, places, ih, places, total, Nat.add_assoc]; rfl

@[simp] theorem length_places : (places off l).length = l.length := by
  induction l generalizing off with
  | nil => rfl
  | cons b l ih => rw [places, List.length_cons, ih, List.length_cons]

theorem mem_of_mem_places (hx : x ∈ places off l) : x.2 ∈ l := by
  induction l generalizing off with
  | nil => cases hx
  | cons b l ih =>
    rcases List.mem_cons.mp hx with rfl | hx
    · exact List.mem_cons_self ..
    · exact List.mem_cons_of_mem _ (ih hx)

theorem Header.congr (h : Header m off b) (same : ∀ i, off ≤ i → i < off + 8 → m' i = m i) :
    Header m' off b where
  size := by
    rw [← h.size]
    exact Codec.u32.read_congr fun i hi hlt => same i hi (by simp only [Codec.u32] at hlt; omega)
  free := by
    rw [← h.free]
    exact Codec.u32.read_congr fun i hi hlt =>
      same i (by omega) (by simp only [Codec.u32] at hlt; omega)

/-- Blocks stay where nothing is written. -/
theorem Tiles.congr (h : Tiles m off l)
    (same : ∀ i, off ≤ i → i < off + total l → m' i = m i) : Tiles m' off l := by
  induction l generalizing off with
  | nil => trivial
  | cons b l ih =>
    obtain ⟨header, large, aligned, rest⟩ := h
    rw [total] at same
    refine ⟨header.congr fun i hi hlt => same i hi (by omega), large, aligned, ih rest ?_⟩
    intro i hi hlt
    exact same i (by omega) (by omega)

theorem Tiles.header (h : Tiles m off l) (hx : x ∈ places off l) :
    Header m x.1 x.2 ∧ 16 ≤ x.2.size ∧ 8 ∣ x.2.size := by
  induction l generalizing off with
  | nil => cases hx
  | cons b l ih =>
    obtain ⟨header, large, aligned, rest⟩ := h
    rcases List.mem_cons.mp hx with rfl | hx
    · exact ⟨header, large, aligned⟩
    · exact ih rest hx

theorem place_bounds (hx : x ∈ places off l) : off ≤ x.1 ∧ x.1 + x.2.size ≤ off + total l := by
  induction l generalizing off with
  | nil => cases hx
  | cons b l ih =>
    rw [total]
    rcases List.mem_cons.mp hx with rfl | hx
    · exact ⟨Nat.le_refl _, by simp only; omega⟩
    · have := ih hx
      omega

theorem Tiles.aligned (h : Tiles m off l) (hoff : 8 ∣ off) (hx : x ∈ places off l) : 8 ∣ x.1 := by
  induction l generalizing off with
  | nil => cases hx
  | cons b l ih =>
    obtain ⟨-, -, aligned, rest⟩ := h
    rcases List.mem_cons.mp hx with rfl | hx
    · exact hoff
    · exact ih rest (Nat.dvd_add hoff aligned) hx

theorem Tiles.total_dvd (h : Tiles m off l) : 8 ∣ total l := by
  induction l generalizing off with
  | nil => exact Nat.dvd_zero 8
  | cons b l ih =>
    obtain ⟨-, -, aligned, rest⟩ := h
    exact Nat.dvd_add aligned (ih rest)

theorem Tiles.length_le (h : Tiles m off l) : 16 * l.length ≤ total l := by
  induction l generalizing off with
  | nil => simp [total]
  | cons b l ih =>
    obtain ⟨-, large, -, rest⟩ := h
    have := ih rest
    rw [total, List.length_cons]
    omega

/-- Different places do not overlap. -/
theorem place_disjoint (h : Tiles m off l) (hx : x ∈ places off l) (hy : y ∈ places off l)
    (lt : x.1 < y.1) : x.1 + x.2.size ≤ y.1 := by
  induction l generalizing off with
  | nil => cases hx
  | cons b l ih =>
    obtain ⟨-, -, -, rest⟩ := h
    rcases List.mem_cons.mp hx with rfl | hx
    · rcases List.mem_cons.mp hy with rfl | hy
      · exact absurd lt (Nat.lt_irrefl _)
      · exact (place_bounds hy).1
    · rcases List.mem_cons.mp hy with rfl | hy
      · have := (place_bounds hx).1
        simp only at lt
        omega
      · exact ih rest hx hy

/-- Places come in the order of their addresses. -/
theorem places_sorted (h : Tiles m off l) : (places off l).Pairwise fun x y => x.1 < y.1 := by
  induction l generalizing off with
  | nil => exact List.Pairwise.nil
  | cons b l ih =>
    obtain ⟨-, large, -, rest⟩ := h
    refine List.pairwise_cons.mpr ⟨fun y hy => ?_, ih rest⟩
    have := (place_bounds hy).1
    simp only
    omega

/-- A place is where one block only is. -/
theorem place_unique (h : Tiles m off l) (hx : x ∈ places off l) (hy : y ∈ places off l)
    (same : x.1 = y.1) : x = y := by
  induction l generalizing off with
  | nil => cases hx
  | cons b l ih =>
    obtain ⟨-, large, -, rest⟩ := h
    rcases List.mem_cons.mp hx with rfl | hx
    · rcases List.mem_cons.mp hy with rfl | hy
      · rfl
      · have := (place_bounds hy).1
        simp only at same
        omega
    · rcases List.mem_cons.mp hy with rfl | hy
      · have := (place_bounds hx).1
        simp only at same
        omega
      · exact ih rest hx hy

/-- A place splits the blocks. -/
theorem split_at_place (hx : x ∈ places off l) :
    ∃ before behind, l = before ++ x.2 :: behind ∧ x.1 = off + total before := by
  induction l generalizing off with
  | nil => cases hx
  | cons b l ih =>
    rcases List.mem_cons.mp hx with rfl | hx
    · exact ⟨[], l, rfl, by simp [total]⟩
    · obtain ⟨before, behind, rfl, hplace⟩ := ih hx
      exact ⟨b :: before, behind, rfl, by rw [hplace, total]; omega⟩

/-! ### Walks -/

section Walks

variable {a : Arena} {h : Heap} {fuel : Nat}

/-- Where the blocks behind an address begin, or the end of the walk. -/
def position (a : Arena) (off : Nat) : Option UInt32 :=
  if off < a.base.toNat + a.size.toNat then some (UInt32.ofNat off) else none

theorem toNat_address {n : Nat} (small : n < 2 ^ 32) : (UInt32.ofNat n).toNat = n :=
  UInt32.toNat_ofNat_of_lt' small

theorem Header.blockSize {h : Heap} (header : Header h.bytes off b) (small : off < 2 ^ 32) :
    h.blockSize (UInt32.ofNat off) = UInt32.ofNat b.size := by
  rw [Heap.blockSize, toNat_address small, header.size]

theorem Header.blockFree {h : Heap} (header : Header h.bytes off b) (small : off < 2 ^ 32) :
    h.blockFree (UInt32.ofNat off) = if b.free then 1 else 0 := by
  rw [Heap.blockFree, toNat_address small, header.free]

theorem toNat_end (a : Arena) : (a.base + a.size).toNat = a.base.toNat + a.size.toNat := by
  rw [UInt32.toNat_add]
  exact Nat.mod_eq_of_lt a.within

/-- The walk goes on behind the block. -/
theorem next_eq (header : Header h.bytes off b)
    (fits : off + b.size ≤ a.base.toNat + a.size.toNat) :
    next a h (UInt32.ofNat off) = position a (off + b.size) := by
  have within := a.within
  have sum : UInt32.ofNat off + UInt32.ofNat b.size = UInt32.ofNat (off + b.size) :=
    (UInt32.ofNat_add off b.size).symm
  have before : UInt32.ofNat (off + b.size) < a.base + a.size ↔
      off + b.size < a.base.toNat + a.size.toNat := by
    rw [UInt32.lt_iff_toNat_lt, toNat_end, toNat_address (by omega)]
  unfold next position
  rw [header.blockSize (by omega), sum]
  simp only [before]

/-- The walk visits the blocks. -/
theorem trail_of_tiles (tiles : Tiles h.bytes off l)
    (hend : off + total l = a.base.toNat + a.size.toNat) :
    Trail (next a h) (position a off) ((places off l).map fun x => UInt32.ofNat x.1) := by
  induction l generalizing off with
  | nil =>
    rw [total, Nat.add_zero] at hend
    exact if_neg (by omega)
  | cons b l ih =>
    obtain ⟨header, large, -, rest⟩ := tiles
    rw [total] at hend
    refine ⟨if_pos (by omega), ?_⟩
    rw [next_eq header (by omega)]
    exact ih rest (by omega)

/-- What a search over the blocks gives: no block stops it, or the first one that would. -/
theorem search_tiles (stop : UInt32 → Bool) (tiles : Tiles h.bytes off l)
    (hend : off + total l = a.base.toNat + a.size.toNat) (enough : l.length ≤ fuel) :
    (search (next a h) stop fuel (position a off) = some none ∧
      ∀ x ∈ places off l, stop (UInt32.ofNat x.1) = false) ∨
    ∃ x ∈ places off l, stop (UInt32.ofNat x.1) = true ∧
      (∀ y ∈ places off l, y.1 < x.1 → stop (UInt32.ofNat y.1) = false) ∧
      search (next a h) stop fuel (position a off) = some (some (UInt32.ofNat x.1)) := by
  rw [search_trail (trail_of_tiles tiles hend)
      (by rw [List.length_map, length_places]; exact enough),
    List.find?_map]
  cases hfind : (places off l).find? (stop ∘ fun x => UInt32.ofNat x.1) with
  | none =>
    refine .inl ⟨rfl, fun x hx => ?_⟩
    simpa using List.find?_eq_none.mp hfind x hx
  | some x =>
    refine .inr ⟨x, List.mem_of_find?_eq_some hfind, by simpa using List.find?_some hfind, ?_, rfl⟩
    intro y hy lt
    obtain ⟨-, front, back, split, none⟩ := List.find?_eq_some_iff_append.mp hfind
    have sorted := places_sorted tiles
    rw [split] at hy sorted
    rcases List.mem_append.mp hy with hy | hy
    · simpa using none y hy
    · have behind := List.pairwise_cons.mp (List.pairwise_append.mp sorted).2.1
      rcases List.mem_cons.mp hy with rfl | hy
      · exact absurd lt (Nat.lt_irrefl _)
      · have := behind.1 y hy
        omega

end Walks

end RPCortex.PackageHeap
