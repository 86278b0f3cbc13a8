import RPCortex.Arena.Tiles

/-! What the calls make of a tiled arena: a taken block is marked and perhaps split, a freed one is
marked and takes in the free blocks behind it, and everything else stays. -/

namespace RPCortex.PackageHeap

open Lib

section Headers

variable {h : Heap} {p v f : UInt32} {i : Nat}

theorem setSize_outside (out : i < p.toNat ∨ p.toNat + 4 ≤ i) :
    (h.setSize p v).bytes i = h.bytes i :=
  store_outside out

theorem setFree_outside (out : i < p.toNat + 4 ∨ p.toNat + 8 ≤ i) :
    (h.setFree p v).bytes i = h.bytes i :=
  store_outside (by
    rcases out with out | out
    · exact .inl out
    · exact .inr (by rw [Codec.u32.length_encode]; exact out))

theorem size_setSize : Codec.u32.read (h.setSize p v).bytes p.toNat = v := Codec.u32.read_store_same

theorem free_setFree : Codec.u32.read (h.setFree p f).bytes (p.toNat + 4) = f :=
  Codec.u32.read_store_same

theorem size_setFree : Codec.u32.read (h.setFree p f).bytes p.toNat = h.blockSize p :=
  Codec.u32.read_congr fun _ _ hlt => setFree_outside (.inl hlt)

theorem free_setSize : Codec.u32.read (h.setSize p v).bytes (p.toNat + 4) = h.blockFree p :=
  Codec.u32.read_congr fun _ hi _ => setSize_outside (.inr hi)

/-- A header that is written as a whole. -/
theorem header_written {b : Block} :
    Header ((h.setSize p (UInt32.ofNat b.size)).setFree p (if b.free then 1 else 0)).bytes
      p.toNat b where
  size := by rw [size_setFree, Heap.blockSize, size_setSize]
  free := free_setFree

theorem header_setFree {size : Nat} (free : Bool) (hsize : h.blockSize p = UInt32.ofNat size) :
    Header (h.setFree p (if free then 1 else 0)).bytes p.toNat ⟨size, free⟩ where
  size := by rw [size_setFree, hsize]
  free := free_setFree

end Headers

/-- What becomes of a block when so much of it is taken. -/
def carve (want : Nat) (b : Block) : List Block :=
  if want + 16 ≤ b.size then [⟨want, false⟩, ⟨b.size - want, true⟩] else [⟨b.size, false⟩]

theorem carve_eq {b : Block} {want : Nat} (large : want ≤ b.size) :
    ∃ taken left, carve want b = taken :: left ∧ taken.size + total left = b.size ∧
      taken.free = false ∧ want ≤ taken.size ∧ ∀ x ∈ left, x.free = true := by
  by_cases splitting : want + 16 ≤ b.size
  · exact ⟨⟨want, false⟩, [⟨b.size - want, true⟩], if_pos splitting, by simp [total]; omega, rfl,
      Nat.le_refl _, by simp⟩
  · exact ⟨⟨b.size, false⟩, [], if_neg splitting, by simp [total], rfl, large, by simp⟩

section Steps

variable {a : Arena} {h : Heap} {off mid fuel : Nat} {b : Block} {before behind : List Block}
  {want : UInt32}

/-- Taking a free block that is large enough. -/
theorem take_tiles (tiles : Tiles h.bytes off (before ++ b :: behind))
    (hmid : mid = off + total before) (small : mid + b.size < 2 ^ 32) (large : want.toNat ≤ b.size)
    (some : 16 ≤ want.toNat) (aligned : 8 ∣ want.toNat)
    (corner : 2 ^ 32 ≤ want.toNat + 16 → want.toNat = b.size ∧ behind = []) :
    Tiles (take h want (UInt32.ofNat mid)).bytes off
      (before ++ (carve want.toNat b ++ behind)) := by
  rw [tiles_append, Tiles, ← hmid] at tiles
  obtain ⟨front, header, least, whole, back⟩ := tiles
  have place : (UInt32.ofNat mid).toNat = mid := toNat_address (by omega)
  have size := header.blockSize (h := h) (by omega)
  have sizeNat : (UInt32.ofNat b.size).toNat = b.size := toNat_address (by omega)
  unfold take
  by_cases splitting : splits h want (UInt32.ofNat mid)
  · rw [if_pos splitting]
    simp only [splits, decide_eq_true_eq, size, UInt32.le_iff_toNat_le, sizeNat] at splitting
    have sum : (UInt32.ofNat mid + want).toNat = mid + want.toNat := by
      rw [UInt32.toNat_add, place]
      exact Nat.mod_eq_of_lt (by omega)
    -- the header of what is left first, then that of the taken block
    obtain ⟨h', hh'⟩ : ∃ h', h' = (h.setSize (UInt32.ofNat mid + want)
      (UInt32.ofNat b.size - want)).setFree (UInt32.ofNat mid + want) 1 := ⟨_, rfl⟩
    have outside : ∀ i, i < mid + want.toNat ∨ mid + want.toNat + 8 ≤ i →
        h'.bytes i = h.bytes i := by
      intro i out
      rw [hh']
      exact (setFree_outside (by omega)).trans (setSize_outside (by omega))
    have taken : Header ((h'.setSize (UInt32.ofNat mid) want).setFree (UInt32.ofNat mid) 0).bytes
        mid ⟨want.toNat, false⟩ := by
      have := header_written (h := h') (p := UInt32.ofNat mid) (b := ⟨want.toNat, false⟩)
      rwa [UInt32.ofNat_toNat, place] at this
    have outside' : ∀ i, i < mid ∨ mid + 8 ≤ i →
        ((h'.setSize (UInt32.ofNat mid) want).setFree (UInt32.ofNat mid) 0).bytes i =
          h'.bytes i := by
      intro i out
      exact (setFree_outside (by omega)).trans (setSize_outside (by omega))
    simp only [size]
    rw [← hh']
    by_cases wraps : 2 ^ 32 ≤ want.toNat + 16
    · -- the sum wraps: the block is all of the arena, and the other header falls behind it
      obtain ⟨whole_, rfl⟩ := corner wraps
      rw [carve, if_neg (by omega), ← whole_]
      rw [List.append_nil, tiles_append, Tiles, ← hmid]
      refine ⟨front.congr fun i _ hlt => ?_, taken, some, aligned, trivial⟩
      exact (outside' i (by omega)).trans (outside i (by omega))
    · have room : want.toNat + 16 ≤ b.size := by
        have : (want + hdr + 8).toNat = want.toNat + 16 := by
          have eight : (8 : UInt32).toNat = 8 := rfl
          rw [UInt32.toNat_add, UInt32.toNat_add]
          simp only [hdr, eight]
          omega
        omega
      rw [carve, if_pos room]
      have left : Header h'.bytes (mid + want.toNat) ⟨b.size - want.toNat, true⟩ := by
        have rest : UInt32.ofNat (b.size - want.toNat) = UInt32.ofNat b.size - want := by
          apply UInt32.toNat_inj.mp
          rw [UInt32.toNat_sub_of_le _ _ (by rw [UInt32.le_iff_toNat_le, sizeNat]; exact large),
            sizeNat, toNat_address (by omega)]
        have := header_written (h := h) (p := UInt32.ofNat mid + want)
          (b := ⟨b.size - want.toNat, true⟩)
        rwa [rest, sum, if_pos rfl, ← hh'] at this
      rw [List.cons_append, List.cons_append, List.nil_append, tiles_append, Tiles, Tiles, ← hmid]
      refine ⟨front.congr fun i _ hlt => ?_, taken, some, aligned, ?_, by simp only; omega, ?_, ?_⟩
      · exact (outside' i (by omega)).trans (outside i (by omega))
      · exact left.congr fun i hi _ => outside' i (by omega)
      · exact Nat.dvd_sub whole aligned
      · have far : mid + want.toNat + (b.size - want.toNat) = mid + b.size := by omega
        rw [far]
        refine back.congr fun i hi _ => ?_
        exact (outside' i (by omega)).trans (outside i (by omega))
  · rw [if_neg splitting]
    have short : ¬want.toNat + 16 ≤ b.size := by
      intro room
      simp only [splits, decide_eq_true_eq, size, UInt32.le_iff_toNat_le, sizeNat] at splitting
      have eight : (8 : UInt32).toNat = 8 := rfl
      rw [UInt32.toNat_add, UInt32.toNat_add] at splitting
      simp only [hdr, eight] at splitting
      omega
    rw [carve, if_neg short, List.cons_append, List.nil_append, tiles_append, Tiles, ← hmid]
    refine ⟨front.congr fun i _ hlt => setFree_outside (.inl (by omega)), ?_, least, whole,
      back.congr fun i hi _ => setFree_outside (.inr (by omega))⟩
    have := header_setFree false size
    rwa [place] at this

/-- Merging takes in the free blocks right behind, up to one that is not free. -/
theorem merge_tiles {size : Nat} (tiles : Tiles h.bytes off (before ++ ⟨size, true⟩ :: behind))
    (hmid : mid = off + total before)
    (hend : mid + size + total behind = a.base.toNat + a.size.toNat)
    (enough : behind.length < fuel) :
    ∃ h', merge a (UInt32.ofNat mid) fuel h = some h' ∧
      Tiles h'.bytes off (before ++ ⟨size + total (behind.takeWhile Block.free), true⟩ ::
        behind.dropWhile Block.free) := by
  have within := a.within
  induction behind generalizing h size fuel with
  | nil =>
    obtain ⟨fuel, rfl⟩ : ∃ n, fuel = n + 1 := ⟨fuel - 1, by omega⟩
    refine ⟨h, ?_, tiles⟩
    rw [tiles_append, Tiles, ← hmid] at tiles
    rw [total] at hend
    rw [merge_succ, next_eq tiles.2.1 (by simp only; omega), position, if_neg (by simp only; omega)]
  | cons n rest ih =>
    obtain ⟨fuel, rfl⟩ : ∃ n, fuel = n + 1 := ⟨fuel - 1, by omega⟩
    rw [List.length_cons] at enough
    rw [total] at hend
    have whole := tiles
    rw [tiles_append, Tiles, Tiles, ← hmid] at tiles
    obtain ⟨front, header, least, sized, header', least', sized', back⟩ := tiles
    simp only at header' least sized back
    have place : (UInt32.ofNat mid).toNat = mid := toNat_address (by omega)
    have onward : next a h (UInt32.ofNat mid) = some (UInt32.ofNat (mid + size)) := by
      rw [next_eq header (by simp only; omega), position, if_pos (by simp only; omega)]
    rw [merge_succ, onward]
    simp only [header'.blockFree (h := h) (by omega)]
    by_cases free : n.free
    · rw [free, if_pos rfl, if_neg (by decide), header.blockSize (by omega),
        header'.blockSize (by omega), ← UInt32.ofNat_add]
      have grown : Tiles (h.setSize (UInt32.ofNat mid) (UInt32.ofNat (size + n.size))).bytes off
          (before ++ ⟨size + n.size, true⟩ :: rest) := by
        rw [tiles_append, Tiles, ← hmid]
        refine ⟨front.congr fun i _ hlt => setSize_outside (by omega), ⟨?_, ?_⟩,
          by simp only; omega, Nat.dvd_add sized sized', ?_⟩
        · have := size_setSize (h := h) (p := UInt32.ofNat mid) (v := UInt32.ofNat (size + n.size))
          rwa [place] at this
        · have := free_setSize (h := h) (p := UInt32.ofNat mid) (v := UInt32.ofNat (size + n.size))
          rwa [place, header.blockFree (by omega)] at this
        · rw [Nat.add_assoc] at back
          exact back.congr fun i hi _ => setSize_outside (by omega)
      obtain ⟨h', hmerge, tiles'⟩ := ih grown (by omega) (show rest.length < fuel by omega)
      refine ⟨h', hmerge, ?_⟩
      rwa [List.takeWhile_cons_of_pos free, List.dropWhile_cons_of_pos free, total,
        ← Nat.add_assoc]
    · rw [if_neg free, if_pos rfl]
      refine ⟨h, rfl, ?_⟩
      rwa [List.takeWhile_cons_of_neg free, List.dropWhile_cons_of_neg free]

/-- Marking a block free keeps the tiling. -/
theorem setFree_tiles (tiles : Tiles h.bytes off (before ++ b :: behind))
    (hmid : mid = off + total before) (small : mid + b.size < 2 ^ 32) :
    Tiles (h.setFree (UInt32.ofNat mid) 1).bytes off (before ++ ⟨b.size, true⟩ :: behind) := by
  rw [tiles_append, Tiles, ← hmid] at tiles ⊢
  obtain ⟨front, header, least, whole, back⟩ := tiles
  have place : (UInt32.ofNat mid).toNat = mid := toNat_address (by omega)
  have marked := header_setFree true (header.blockSize (h := h) (by omega))
  rw [place, if_pos rfl] at marked
  exact ⟨front.congr fun i _ hlt => setFree_outside (by omega), marked, least, whole,
    back.congr fun i hi _ => setFree_outside (by omega)⟩

end Steps

end RPCortex.PackageHeap
