import RPCortex.Fat12.Contents

/-! `f12_read` at any offset and length, with clusters of any number of sectors.  Whatever was read
through a cursor before, a read gives what it gives without one: the part of the chain that the clipped
length asks for.  The clipping adds in 32 bits. -/

namespace RPCortex.Fat12

open Lib

variable {f : F12} {d : Disk} {e e' : F12Entry} {cur : F12Cursor} {c j k n m w left off len fuel : Nat}

/-- `bytes_per_cluster`. -/
def F12.clusterSize (f : F12) : Nat := f.spc * 512

theorem clusterSize_pos (f : F12) : 0 < f.clusterSize := Nat.mul_pos f.spc_pos (by decide)

theorem length_cluster : (clusterBytes f d c).length = f.clusterSize := length_clusterBytes

/-! ### Chains -/

/-- How many clusters are followed does not matter where enough are. -/
theorem take_chainBytes (enough : k ≤ n * f.clusterSize) (enough' : k ≤ m * f.clusterSize) :
    (chainBytes f d n c).take k = (chainBytes f d m c).take k := by
  induction n generalizing m c k with
  | zero =>
    obtain rfl : k = 0 := by omega
    rw [List.take_zero, List.take_zero]
  | succ n ih =>
    cases m with
    | zero =>
      obtain rfl : k = 0 := by omega
      rw [List.take_zero, List.take_zero]
    | succ m =>
      rw [chainBytes, chainBytes]
      split
      · rw [List.take_append, List.take_append, length_cluster]
        rw [Nat.succ_mul] at enough enough'
        rw [ih (k := k - f.clusterSize) (m := m) (by omega) (by omega)]
      · rfl

theorem length_chainBytes_le (out : inChain (follow f d j c) = false) :
    (chainBytes f d n c).length ≤ j * f.clusterSize := by
  induction j generalizing n c with
  | zero =>
    rw [chainBytes_of_not_inChain (c := c) out, List.length_nil, Nat.zero_mul]
  | succ j ih =>
    cases n with
    | zero => exact Nat.zero_le _
    | succ n =>
      rw [chainBytes]
      split
      · rename_i here
        rw [follow, if_pos here] at out
        rw [List.length_append, length_cluster, Nat.succ_mul]
        have := ih (n := n) out
        omega
      · exact Nat.zero_le _

theorem le_length_chainBytes (on : inChain (follow f d j c) = true) (enough : j < n) :
    (j + 1) * f.clusterSize ≤ (chainBytes f d n c).length := by
  induction j generalizing n c with
  | zero =>
    obtain ⟨n, rfl⟩ := Nat.exists_eq_succ_of_ne_zero (by omega : n ≠ 0)
    rw [follow] at on
    rw [chainBytes, if_pos on, List.length_append, length_cluster]
    omega
  | succ j ih =>
    obtain ⟨n, rfl⟩ := Nat.exists_eq_succ_of_ne_zero (by omega : n ≠ 0)
    rw [follow] at on
    split at on
    · rename_i here
      have := ih (n := n) on (by omega)
      rw [chainBytes, if_pos here, List.length_append, length_cluster, Nat.succ_mul]
      omega
    · rename_i out
      exact absurd on out

/-- A read along a chain gives its bytes. -/
theorem readChain_eq (inside : w < f.clusterSize) (enough : left ≤ fuel)
    (long : w + left ≤ n * f.clusterSize) :
    readChain f d fuel c w left = ((chainBytes f d n c).drop w).take left := by
  induction fuel generalizing c w left n with
  | zero =>
    obtain rfl : left = 0 := by omega
    rw [readChain, List.take_zero]
  | succ fuel ih =>
    rw [readChain]
    split
    · rename_i stops
      rcases stops with rfl | out
      · rw [List.take_zero]
      · rw [chainBytes_of_not_inChain (by simpa using out), List.drop_nil, List.take_nil]
    · rename_i goes
      obtain ⟨some_, on⟩ := not_or.mp goes
      rw [Bool.not_eq_true, Bool.not_eq_false'] at on
      obtain ⟨m, rfl⟩ : ∃ m, n = m + 1 := by
        refine Nat.exists_eq_succ_of_ne_zero ?_
        rintro rfl
        omega
      obtain ⟨step, hstep⟩ : ∃ step, step = min (512 - w % 512) left := ⟨_, rfl⟩
      have size : f.clusterSize = f.spc * 512 := rfl
      have whole : w + step ≤ f.clusterSize := by omega
      have less : left - step ≤ fuel := by omega
      have address : (f.firstData + (c - 2) * f.spc + w / 512) * 512 + w % 512 =
          (f.firstData + (c - 2) * f.spc) * 512 + w := by
        rw [Nat.add_mul _ (w / 512)]
        omega
      -- the part in this sector, and the rest behind it
      have part : ((d.read (f.firstData + (c - 2) * f.spc + w / 512)).drop (w % 512)).take step =
          ((clusterBytes f d c).drop w).take step := by
        rw [Disk.read, drop_window (by omega), take_window (by omega), clusterBytes,
          drop_window (by omega), take_window (by omega), address]
      have front : step ≤ ((clusterBytes f d c).drop w).length := by
        rw [List.length_drop, length_cluster]
        omega
      have cut : ((chainBytes f d (m + 1) c).drop w).take left =
          ((clusterBytes f d c).drop w).take step ++
            ((chainBytes f d (m + 1) c).drop (w + step)).take (left - step) := by
        have parts : left = step + (left - step) := by omega
        conv_lhs => rw [parts]
        rw [List.take_add, List.drop_drop]
        congr 1
        rw [chainBytes, if_pos on, List.drop_append_of_le_length (by rw [length_cluster]; omega),
          List.take_append_of_le_length front]
      rw [Nat.succ_mul] at long
      simp only [← hstep]
      rw [part, cut]
      congr 1
      rw [← size]
      split
      · rename_i last
        have full : w + step = f.clusterSize := by omega
        rw [ih (n := m) (clusterSize_pos f) less (by omega), List.drop_zero, full, chainBytes,
          if_pos on, List.drop_left' length_cluster]
      · exact ih (n := m + 1) (by omega) less (by rw [Nat.succ_mul]; omega)

/-! ### Reads -/

/-- The length that a read is clipped to. -/
def clipped (e : F12Entry) (off len : Nat) : Nat :=
  if e.size < (off + len) % 2 ^ 32 then e.size - off else len

/-- A read inside a file gives the bytes of the chain, wherever the cursor stands on it. -/
theorem f12Read_bytes (file : e.isDir = false) (more : off < e.size) (on : CursorOn f d e cur) :
    (f12Read f d e cur off len).1 =
      ((chainBytes f d (off + clipped e off len) e.firstCluster).drop off).take
        (clipped e off len) := by
  have pos : 0 < f.spc * 512 := clusterSize_pos f
  obtain ⟨start, chain⟩ := on.seek off
  simp only [f12Read, file, Bool.false_eq_true, false_or, if_neg (Nat.not_le.mpr more), start, chain]
  rw [← clipped]
  generalize clipped e off len = n
  obtain ⟨k, hk⟩ : ∃ k, off / (f.spc * 512) = k := ⟨_, rfl⟩
  rw [hk]
  have front : k * (f.spc * 512) ≤ off := hk ▸ Nat.div_mul_le_self _ _
  have inside : off - k * (f.spc * 512) < f.spc * 512 := by
    have := Nat.lt_div_mul_add (a := off) pos
    rw [hk] at this
    omega
  have few : k ≤ off := hk ▸ Nat.div_le_self _ _
  obtain ⟨rest, hrest⟩ : ∃ rest, off + n = k + rest := ⟨off + n - k, by omega⟩
  have enough : off - k * (f.spc * 512) + n ≤ rest * (f.spc * 512) := by
    have most : k * (f.spc * 512) + rest * (f.spc * 512) = (off + n) * (f.spc * 512) := by
      rw [hrest, Nat.add_mul]
    have least := Nat.le_mul_of_pos_right (off + n) pos
    omega
  rw [readChain_eq (f := f) (n := rest) inside le_rfl enough, hrest, ← drop_chainBytes, List.drop_drop,
    Nat.add_sub_cancel' front]

/-- A read leaves the cursor on whatever chain it is on. -/
theorem f12Read_on (on : ∀ e, CursorOn f d e cur) (e' : F12Entry) :
    CursorOn f d e' (f12Read f d e cur off len).2 := by
  obtain ⟨start, chain⟩ := (on e).seek off
  unfold f12Read
  split
  · exact on e'
  · simp only [start, chain]
    split
    · intro same _
      refine ⟨off / (f.spc * 512), rfl, ?_⟩
      simp only at same ⊢
      rw [same]
    · exact on e'

/-- The cursor after some reads, from `f12_cursor_init` on. -/
def cursorAfter (f : F12) (d : Disk) (reads : List (F12Entry × Nat × Nat)) : F12Cursor :=
  reads.foldl (fun cur r => (f12Read f d r.1 cur r.2.1 r.2.2).2) f12CursorInit

theorem cursorAfter_on (reads : List (F12Entry × Nat × Nat)) (e : F12Entry) :
    CursorOn f d e (cursorAfter f d reads) := by
  have all : ∀ cur : F12Cursor, (∀ e, CursorOn f d e cur) →
      ∀ e, CursorOn f d e
        (reads.foldl (fun cur r => (f12Read f d r.1 cur r.2.1 r.2.2).2) cur) := by
    induction reads with
    | nil => exact fun cur on => on
    | cons r reads ih => exact fun cur on => ih _ (f12Read_on on)
  exact all f12CursorInit (fun _ => cursorOn_init) e

/-- Without a cursor a read is the one with a fresh cursor. -/
theorem f12Read_cursorAfter (reads : List (F12Entry × Nat × Nat)) :
    (f12Read f d e (cursorAfter f d reads) off len).1 = (f12Read f d e f12CursorInit off len).1 := by
  by_cases idle : e.isDir = true ∨ e.size ≤ off
  · rw [f12Read, f12Read, if_pos idle, if_pos idle]
  · obtain ⟨file, more⟩ := not_or.mp idle
    rw [Bool.not_eq_true] at file
    rw [f12Read_bytes file (Nat.not_le.mp more) (cursorAfter_on reads e),
      f12Read_bytes file (Nat.not_le.mp more) cursorOn_init]

/-! ### Slices -/

/-- The chain has a cluster for every byte of the file. -/
def LongEnough (f : F12) (d : Disk) (e : F12Entry) : Prop :=
  ∀ j, j * f.clusterSize < e.size → inChain (follow f d j e.firstCluster) = true

/-- The chain ends with the last byte of the file. -/
def EndsWithFile (f : F12) (d : Disk) (e : F12Entry) : Prop :=
  e.size % f.clusterSize = 0 ∧
    inChain (follow f d (e.size / f.clusterSize) e.firstCluster) = false

/-- The chain holds the file, and nothing more when it ends with it. -/
theorem LongEnough.length (long : LongEnough f d e) (some_ : 0 < e.size) (enough : e.size ≤ n) :
    e.size ≤ (chainBytes f d n e.firstCluster).length ∧
      (e.size < n → ((chainBytes f d n e.firstCluster).length = e.size ↔ EndsWithFile f d e)) := by
  have pos := clusterSize_pos f
  obtain ⟨last, hlast⟩ : ∃ last, last = (e.size - 1) / f.clusterSize := ⟨_, rfl⟩
  have below : last * f.clusterSize ≤ e.size - 1 := hlast ▸ Nat.div_mul_le_self _ _
  have above : e.size - 1 < last * f.clusterSize + f.clusterSize :=
    hlast ▸ Nat.lt_div_mul_add pos
  have few : last ≤ e.size - 1 := hlast ▸ Nat.div_le_self _ _
  have least := le_length_chainBytes (n := n) (long last (by omega)) (by omega)
  rw [Nat.succ_mul] at least
  refine ⟨by omega, fun larger => ⟨fun same => ?_, fun ends => ?_⟩⟩
  · have whole : e.size = (last + 1) * f.clusterSize := by
      rw [Nat.succ_mul]
      omega
    refine ⟨by rw [whole, Nat.mul_mod_left], ?_⟩
    by_contra on
    rw [Bool.not_eq_false] at on
    rw [whole, Nat.mul_div_cancel _ pos] at on
    have := le_length_chainBytes (n := n) on (by omega)
    rw [Nat.succ_mul, ← whole] at this
    omega
  · have most := length_chainBytes_le (n := n) ends.2
    rw [Nat.div_mul_cancel (Nat.dvd_of_mod_eq_zero ends.1)] at most
    omega

/-- A read is the slice of the file, whatever was read through the cursor before, unless the sum of the
offset and the length wraps and the chain goes on behind the file. -/
theorem f12Read_slice_iff (file : e.isDir = false) (size : e.size < 2 ^ 32) (short : len < 2 ^ 32)
    (long : LongEnough f d e) (reads : List (F12Entry × Nat × Nat)) :
    (f12Read f d e (cursorAfter f d reads) off len).1 = (f12Read f d e f12CursorInit off len).1 ∧
        (f12Read f d e (cursorAfter f d reads) off len).1 =
          ((fileBytes f d e).drop off).take len ↔
      e.size ≤ off ∨ off + len < 2 ^ 32 ∨ EndsWithFile f d e := by
  rw [and_iff_right (f12Read_cursorAfter reads)]
  by_cases behind : e.size ≤ off
  · rw [f12Read, if_pos (.inr behind), fileBytes, List.drop_eq_nil_of_le (by
      rw [List.length_take]; omega), List.take_nil]
    exact iff_of_true rfl (.inl behind)
  have pos := clusterSize_pos f
  have more := Nat.not_le.mp behind
  rw [f12Read_bytes file more (cursorAfter_on reads e)]
  have fits := Nat.le_mul_of_pos_right e.size pos
  have slice : ((fileBytes f d e).drop off).take len =
      ((chainBytes f d e.size e.firstCluster).drop off).take (min len (e.size - off)) := by
    rw [fileBytes, List.drop_take, List.take_take]
  have same (n k : Nat) (enough : off + k ≤ n) (inside : off + k ≤ e.size) :
      ((chainBytes f d n e.firstCluster).drop off).take k =
        ((chainBytes f d e.size e.firstCluster).drop off).take k := by
    have most := Nat.le_mul_of_pos_right n pos
    have take : (chainBytes f d n e.firstCluster).take (off + k) =
        (chainBytes f d e.size e.firstCluster).take (off + k) :=
      take_chainBytes (by omega) (by omega)
    have cut := congrArg (List.drop off) take
    rwa [List.drop_take, List.drop_take, Nat.add_sub_cancel_left] at cut
  rw [slice]
  by_cases plain : off + len < 2 ^ 32
  · have all : clipped e off len = min len (e.size - off) := by
      rw [clipped, Nat.mod_eq_of_lt plain]
      split <;> omega
    rw [all]
    exact iff_of_true (same _ _ le_rfl (by omega)) (.inr (.inl plain))
  · -- the sum wraps to something below the offset, so nothing is clipped
    have all : clipped e off len = len := by
      rw [clipped, if_neg (by omega)]
    have few : min len (e.size - off) = e.size - off := by omega
    obtain ⟨holds, ends⟩ := long.length (n := off + len) (by omega) (by omega)
    obtain ⟨whole, -⟩ := long.length (n := e.size) (by omega) le_rfl
    rw [all, few, or_iff_right behind, or_iff_right plain, ← ends (by omega)]
    constructor
    · intro equal
      have count := congrArg List.length equal
      rw [List.length_take, List.length_drop, List.length_take, List.length_drop] at count
      omega
    · intro equal
      rw [← same (off + len) (e.size - off) (by omega) (by omega), List.take_of_length_le,
        List.take_of_length_le]
      · rw [List.length_drop]
        omega
      · rw [List.length_drop]
        omega

/-! ### A file of two bytes -/

/-- A volume with clusters of two sectors. -/
def twoSectors : F12 := ⟨1, 1, 16, 2, 1, 1, 2, 3, 3, by decide, by decide, by decide⟩

/-- Cluster 2 is the last of its chain. -/
def oneCluster : Disk := ⟨fun a => if a = 515 then 0xFF else if a = 516 then 0x0F else 7⟩

/-- A file of two bytes in it. -/
def twoBytes : F12Entry := ⟨[0x66], 2, 0, 2, false⟩

theorem twoBytes_long : LongEnough twoSectors oneCluster twoBytes := by
  intro j inside
  have size : twoSectors.clusterSize = 1024 := rfl
  have few : j * 1024 < 2 := size ▸ inside
  obtain rfl : j = 0 := by omega
  decide

theorem f12Read_slice_iff_small :
    (f12Read twoSectors oneCluster twoBytes (cursorAfter twoSectors oneCluster [(twoBytes, 1, 1)]) 0 5).1 =
          (f12Read twoSectors oneCluster twoBytes f12CursorInit 0 5).1 ∧
        (f12Read twoSectors oneCluster twoBytes
            (cursorAfter twoSectors oneCluster [(twoBytes, 1, 1)]) 0 5).1 =
          ((fileBytes twoSectors oneCluster twoBytes).drop 0).take 5 ↔
      twoBytes.size ≤ 0 ∨ 0 + 5 < 2 ^ 32 ∨ EndsWithFile twoSectors oneCluster twoBytes :=
  f12Read_slice_iff rfl (by decide) (by norm_num) twoBytes_long _

/-- The last byte is asked for with the largest length: the rest of the cluster comes with it. -/
theorem not_f12Read_slice : ¬∀ f d e reads off len, e.isDir = false → e.size < 2 ^ 32 → off < 2 ^ 32 →
    len < 2 ^ 32 → LongEnough f d e →
    (f12Read f d e (cursorAfter f d reads) off len).1 = (f12Read f d e f12CursorInit off len).1 ∧
      (f12Read f d e (cursorAfter f d reads) off len).1 = ((fileBytes f d e).drop off).take len := by
  intro always
  have slice := (always twoSectors oneCluster twoBytes [] 1 (2 ^ 32 - 1) rfl (by decide) (by norm_num)
    (by norm_num) twoBytes_long).2
  have all : clipped twoBytes 1 (2 ^ 32 - 1) = 2 ^ 32 - 1 := by
    rw [clipped]
    norm_num
  have whole := le_length_chainBytes (f := twoSectors) (d := oneCluster) (c := 2) (j := 0) (n := 2 ^ 32)
    (by decide) (by norm_num)
  have size : twoSectors.clusterSize = 1024 := rfl
  rw [f12Read_bytes rfl (by decide) (cursorAfter_on [] twoBytes), all] at slice
  have count := congrArg List.length slice
  have first : twoBytes.firstCluster = 2 := rfl
  have short : (fileBytes twoSectors oneCluster twoBytes).length ≤ 2 := List.length_take_le _ _
  rw [List.length_take, List.length_drop, List.length_take, List.length_drop, first] at count
  norm_num at count whole
  omega

end RPCortex.Fat12
