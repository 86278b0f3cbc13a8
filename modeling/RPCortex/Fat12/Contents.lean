import RPCortex.Fat12.Volume

/-! The contents of a file are the bytes of its clusters, cut to its size.  A read of one sector
gives the part of the contents that it asks for, wherever the cursor of earlier reads stands. -/

namespace RPCortex.Fat12

open Lib

variable {f : F12} {d : Disk} {e : F12Entry} {cur : F12Cursor} {c j k off fuel : Nat}

/-- The bytes of a cluster. -/
def clusterBytes (f : F12) (d : Disk) (cluster : Nat) : List UInt8 :=
  window d.bytes ((f.firstData + (cluster - 2) * f.spc) * 512) (f.spc * 512)

/-- The bytes of a chain of at most `fuel` clusters. -/
def chainBytes (f : F12) (d : Disk) : (fuel : Nat) → (cluster : Nat) → List UInt8
  | 0, _ => []
  | fuel + 1, c =>
    if inChain c then clusterBytes f d c ++ chainBytes f d fuel (fatGet f d c) else []

/-- The contents of a file; a cluster holds at least a byte, so a chain as long as the size will do. -/
def fileBytes (f : F12) (d : Disk) (e : F12Entry) : List UInt8 :=
  (chainBytes f d e.size e.firstCluster).take e.size

theorem length_clusterBytes : (clusterBytes f d c).length = f.spc * 512 := length_window

/-! ### Chains -/

theorem follow_of_not_inChain (h : inChain c = false) : follow f d k c = c := by
  cases k with
  | zero => rfl
  | succ k => rw [follow, if_neg (by simp [h])]

theorem follow_add : follow f d (j + k) c = follow f d k (follow f d j c) := by
  induction j generalizing c with
  | zero => rw [Nat.zero_add]; rfl
  | succ j ih =>
    rw [Nat.succ_add]
    simp only [follow]
    split
    · exact ih
    · rename_i out
      rw [follow_of_not_inChain (by simpa using out)]

theorem chainBytes_of_not_inChain (h : inChain c = false) : chainBytes f d fuel c = [] := by
  cases fuel with
  | zero => rfl
  | succ fuel => rw [chainBytes, if_neg (by simp [h])]

/-- The bytes behind some clusters are those of the chain from there on. -/
theorem drop_chainBytes : (chainBytes f d (k + fuel) c).drop (k * (f.spc * 512)) =
    chainBytes f d fuel (follow f d k c) := by
  induction k generalizing c with
  | zero => simp [follow]
  | succ k ih =>
    rw [Nat.succ_add]
    simp only [follow, chainBytes]
    split
    · have split : (k + 1) * (f.spc * 512) = (clusterBytes f d c).length + k * (f.spc * 512) := by
        rw [length_clusterBytes, Nat.succ_mul, Nat.add_comm]
      rw [split, ← List.drop_drop, List.drop_left]
      exact ih
    · rename_i out
      rw [List.drop_nil, chainBytes_of_not_inChain (by simpa using out)]

/-- A part of one sector of a chain, the first cluster of which is `c`. -/
def sectorPart (f : F12) (d : Disk) (c w n : Nat) : List UInt8 :=
  if inChain c then (d.read (f.firstData + (c - 2) * f.spc + w / 512)).take n else []

theorem drop_take_chainBytes {w n : Nat} (aligned : w % 512 = 0) (inside : w < f.spc * 512)
    (small : n ≤ 512) : ((chainBytes f d (fuel + 1) c).drop w).take n = sectorPart f d c w n := by
  rw [chainBytes, sectorPart]
  split
  · have whole : w + 512 ≤ f.spc * 512 := by omega
    have address : (f.firstData + (c - 2) * f.spc + w / 512) * 512 =
        (f.firstData + (c - 2) * f.spc) * 512 + w := by
      rw [Nat.add_mul _ (w / 512)]
      omega
    have front : n ≤ ((clusterBytes f d c).drop w).length := by
      rw [List.length_drop, length_clusterBytes]
      omega
    rw [List.drop_append_of_le_length (by rw [length_clusterBytes]; omega),
      List.take_append_of_le_length front, clusterBytes, drop_window (by omega),
      take_window (by omega), Disk.read, take_window small, address]
  · simp

theorem length_sectorPart {w n : Nat} (small : n ≤ 512) (some_ : sectorPart f d c w n ≠ []) :
    (sectorPart f d c w n).length = n := by
  unfold sectorPart at some_ ⊢
  split at some_
  · rw [if_pos ‹_›, List.length_take, Disk.read, length_window, Nat.min_eq_left small]
  · exact absurd rfl some_

/-- A read inside one sector. -/
theorem readChain_sector {w n : Nat} (aligned : w % 512 = 0) (small : n ≤ 512) (enough : n ≤ fuel) :
    readChain f d fuel c w n = sectorPart f d c w n := by
  have done (fuel c' w' : Nat) : readChain f d fuel c' w' 0 = [] := by
    cases fuel <;> simp [readChain]
  by_cases none : n = 0
  · rw [none, done]
    simp [sectorPart]
  obtain ⟨fuel, rfl⟩ := Nat.exists_eq_succ_of_ne_zero (by omega : fuel ≠ 0)
  have all : min 512 n = n := by omega
  rw [readChain, sectorPart]
  cases inChain c with
  | false => simp
  | true => simp only [none, aligned, all, Nat.sub_self, Nat.sub_zero, done, Bool.not_true,
      Bool.false_eq_true, or_self, if_false, if_true, List.drop_zero, ite_self, List.append_nil]

/-! ### The cursor -/

/-- A cursor that reads resume from stands where the chain of the file is at its offset. -/
def CursorOn (f : F12) (d : Disk) (e : F12Entry) (cur : F12Cursor) : Prop :=
  cur.first = e.firstCluster → 2 ≤ cur.cluster →
    ∃ j, cur.at_ = j * (f.spc * 512) ∧ cur.cluster = follow f d j e.firstCluster

theorem cursorOn_init : CursorOn f d e f12CursorInit := fun _ no => absurd no (by decide)

/-- Where a read begins to walk, as a number of clusters. -/
theorem CursorOn.resume (on : CursorOn f d e cur) (off : Nat) : ∃ j, j * (f.spc * 512) ≤ off ∧
    (if cur.first = e.firstCluster ∧ 2 ≤ cur.cluster ∧ cur.at_ ≤ off then cur.at_ else 0) =
      j * (f.spc * 512) ∧
    (if cur.first = e.firstCluster ∧ 2 ≤ cur.cluster ∧ cur.at_ ≤ off then cur.cluster
      else e.firstCluster) = follow f d j e.firstCluster := by
  split
  · rename_i resumes
    obtain ⟨j, at_, on⟩ := on resumes.1 resumes.2.1
    exact ⟨j, at_ ▸ resumes.2.2, at_, on⟩
  · exact ⟨0, by omega, by omega, rfl⟩

/-- Where a read begins to copy, wherever it begins to walk. -/
theorem CursorOn.seek (on : CursorOn f d e cur) (off : Nat) :
    (if cur.first = e.firstCluster ∧ 2 ≤ cur.cluster ∧ cur.at_ ≤ off then cur.at_ else 0) +
        (off - (if cur.first = e.firstCluster ∧ 2 ≤ cur.cluster ∧ cur.at_ ≤ off then cur.at_ else 0)) /
          (f.spc * 512) * (f.spc * 512) = off / (f.spc * 512) * (f.spc * 512) ∧
      follow f d ((off - (if cur.first = e.firstCluster ∧ 2 ≤ cur.cluster ∧ cur.at_ ≤ off then cur.at_
          else 0)) / (f.spc * 512))
        (if cur.first = e.firstCluster ∧ 2 ≤ cur.cluster ∧ cur.at_ ≤ off then cur.cluster
          else e.firstCluster) = follow f d (off / (f.spc * 512)) e.firstCluster := by
  have pos : 0 < f.spc * 512 := Nat.mul_pos f.spc_pos (by decide)
  obtain ⟨j, behind, base, cluster⟩ := on.resume off
  have skip : j + (off - j * (f.spc * 512)) / (f.spc * 512) = off / (f.spc * 512) := by
    have := Nat.add_mul_div_right (off - j * (f.spc * 512)) j pos
    rw [Nat.sub_add_cancel behind] at this
    omega
  rw [base, cluster, ← follow_add, skip, ← Nat.add_mul, skip]
  exact ⟨rfl, rfl⟩

/-- A read of a sector gives the part of the chain that it asks for, in one piece, and the cursor
stays on the file. -/
theorem f12Read_eq (file : e.isDir = false) (fits : e.size ≤ 2 ^ 32 - 512) (more : off < e.size)
    (aligned : off % 512 = 0) (on : CursorOn f d e cur) :
    (f12Read f d e cur off 512).1 =
        ((chainBytes f d e.size e.firstCluster).drop off).take (min 512 (e.size - off)) ∧
      ((f12Read f d e cur off 512).1 ≠ [] →
        (f12Read f d e cur off 512).1.length = min 512 (e.size - off)) ∧
      CursorOn f d e (f12Read f d e cur off 512).2 := by
  have len : (if e.size < (off + 512) % 2 ^ 32 then e.size - off else 512) =
      min 512 (e.size - off) := by
    rw [Nat.mod_eq_of_lt (by omega)]
    split <;> omega
  have pos : 0 < f.spc * 512 := Nat.mul_pos f.spc_pos (by decide)
  obtain ⟨start, chain⟩ := on.seek off
  simp only [f12Read, file, Bool.false_eq_true, false_or, if_neg (Nat.not_le.mpr more), len, start, chain]
  obtain ⟨k, hk⟩ : ∃ k, off / (f.spc * 512) = k := ⟨_, rfl⟩
  rw [hk]
  have front : k * (f.spc * 512) ≤ off := hk ▸ Nat.div_mul_le_self _ _
  have inside : off - k * (f.spc * 512) < f.spc * 512 := by
    have := Nat.lt_div_mul_add (a := off) pos
    rw [hk] at this
    omega
  have sector : (off - k * (f.spc * 512)) % 512 = 0 := by
    have : k * (f.spc * 512) = 512 * (k * f.spc) := by ring
    omega
  have few : k < e.size := lt_of_le_of_lt (hk ▸ Nat.div_le_self _ _) more
  obtain ⟨fuel, rest⟩ : ∃ fuel, e.size = k + (fuel + 1) := ⟨e.size - k - 1, by omega⟩
  have small : min 512 (e.size - off) ≤ 512 := Nat.min_le_left _ _
  have part : ((chainBytes f d (fuel + 1) (follow f d k e.firstCluster)).drop
      (off - k * (f.spc * 512))).take (min 512 (e.size - off)) = sectorPart f d
      (follow f d k e.firstCluster) (off - k * (f.spc * 512)) (min 512 (e.size - off)) :=
    drop_take_chainBytes sector inside small
  rw [readChain_sector sector small le_rfl]
  refine ⟨?_, length_sectorPart small, fun first there => ?_⟩
  · rw [← part, ← drop_chainBytes, ← rest, List.drop_drop, Nat.add_sub_cancel' front]
  · split
    · exact ⟨k, rfl, rfl⟩
    · rename_i out
      rw [if_neg out] at first there
      exact on first there

end RPCortex.Fat12
