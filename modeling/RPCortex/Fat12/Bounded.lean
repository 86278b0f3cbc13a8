import RPCortex.Fat12.Access

/-! A mounted volume is used inside its bounds, whatever a host wrote on it, by calls that find it in
order: the table has room for every cluster, no chain and no file leaves the volume, months are
months and the directory does not end behind its last entry. -/

namespace RPCortex.Fat12

open Lib

variable {f : F12} {d d' : Disk} {sectors : Nat} {c slot : Nat}

/-- All of them are in bounds. -/
def AllSafe (f : F12) (sectors : Nat) (l : List Access) : Prop := ∀ a ∈ l, a.Safe f sectors

@[simp] theorem allSafe_nil : AllSafe f sectors [] := fun _ h => nomatch h

@[simp] theorem allSafe_cons {a : Access} {l : List Access} :
    AllSafe f sectors (a :: l) ↔ a.Safe f sectors ∧ AllSafe f sectors l := List.forall_mem_cons

@[simp] theorem allSafe_append {l l' : List Access} :
    AllSafe f sectors (l ++ l') ↔ AllSafe f sectors l ∧ AllSafe f sectors l' :=
  List.forall_mem_append

theorem allSafe_flatMap {α : Type} {l : List α} {g : α → List Access}
    (h : ∀ x ∈ l, AllSafe f sectors (g x)) : AllSafe f sectors (l.flatMap g) := by
  intro a ha
  rcases List.mem_flatMap.mp ha with ⟨x, hx, hxa⟩
  exact h x hx a hxa

theorem AllSafe.ite {p : Prop} [Decidable p] {l l' : List Access} (h : p → AllSafe f sectors l)
    (h' : ¬p → AllSafe f sectors l') : AllSafe f sectors (if p then l else l') := by
  split
  · exact h ‹_›
  · exact h' ‹_›

/-! ### The table -/

section Table

variable (on : f.On sectors) (sound : f.Sound)

include on

theorem fatByteIo_safe {off : Nat} (h : f.fatAt off < f.firstRoot * 512) :
    AllSafe f sectors (fatByteIo f off) := by
  have data := on.data
  have inside := on.inside
  unfold F12.fatAt at h
  rw [fatByteIo, allSafe_cons, allSafe_cons]
  refine ⟨?_, Nat.mod_lt _ (by decide), allSafe_nil⟩
  show f.firstFat + off / 512 < sectors
  omega

theorem fatByteSetIo_safe {off : Nat} (h : f.fatAt off < f.firstRoot * 512) :
    AllSafe f sectors (fatByteSetIo f off) := by
  have data := on.data
  have inside := on.inside
  rw [fatByteSetIo, allSafe_append, allSafe_cons]
  refine ⟨fatByteIo_safe on h, ⟨?_, ?_, h⟩, allSafe_nil⟩
  · unfold F12.fatAt at h
    omega
  · show f.firstFat * 512 ≤ f.firstFat * 512 + off
    omega

include sound

omit on in
theorem fatAt_inside (h : c < f.clusters + 2) :
    f.fatAt (c + c / 2) < f.firstRoot * 512 ∧ f.fatAt (c + c / 2 + 1) < f.firstRoot * 512 := by
  have last := sound.table c h
  refine ⟨?_, last⟩
  unfold F12.fatAt at last ⊢
  omega

theorem fatGetIo_safe (h : c < f.clusters + 2) : AllSafe f sectors (fatGetIo f c) := by
  rw [fatGetIo, allSafe_append]
  exact ⟨fatByteIo_safe on (fatAt_inside sound h).1, fatByteIo_safe on (fatAt_inside sound h).2⟩

theorem fatSetIo_safe (h : c < f.clusters + 2) : AllSafe f sectors (fatSetIo f c) := by
  rw [fatSetIo, allSafe_append]
  exact ⟨fatByteSetIo_safe on (fatAt_inside sound h).1,
    fatByteSetIo_safe on (fatAt_inside sound h).2⟩

/-! ### Chains -/

/-- A cluster that a chain starts with is on the volume. -/
def F12.Starts (f : F12) (c : Nat) : Prop := inChain c = true → c < f.clusters + 2

omit on sound in
theorem Chained.starts (chained : Chained f d) (h : f.Starts c) (hc : inChain c = true) :
    f.Starts (fatGet f d c) := chained c (inChain_iff.mp hc).1 (h hc)

omit on sound in
theorem Chained.follow (chained : Chained f d) (skip : Nat) (h : f.Starts c) :
    f.Starts (follow f d skip c) := by
  induction skip generalizing c with
  | zero => exact h
  | succ skip ih =>
    rw [Fat12.follow]
    split
    · exact ih (chained.starts h ‹_›)
    · exact h

theorem followIo_safe (chained : Chained f d) (skip : Nat) (h : f.Starts c) :
    AllSafe f sectors (followIo f d skip c) := by
  induction skip generalizing c with
  | zero => exact allSafe_nil
  | succ skip ih =>
    rw [followIo]
    refine AllSafe.ite (fun hc => ?_) fun _ => allSafe_nil
    rw [allSafe_append]
    exact ⟨fatGetIo_safe on sound (h hc), ih (chained.starts h hc)⟩

omit on sound in
theorem data_sector {sn : Nat} (h : inChain c = true) (hc : f.Starts c) (hs : sn < f.spc) :
    f.firstData + (c - 2) * f.spc + sn + 1 ≤ f.firstData + f.clusters * f.spc := by
  have two := (inChain_iff.mp h).1
  have lt := hc h
  have next : (c - 2) * f.spc + f.spc ≤ f.clusters * f.spc := by
    rw [← Nat.succ_mul]
    exact Nat.mul_le_mul_right _ (by omega)
  omega

theorem readChainIo_safe (chained : Chained f d) {len fuel within left : Nat} (h : f.Starts c)
    (hw : within < f.spc * 512) (hl : left ≤ len) :
    AllSafe f sectors (readChainIo f d len fuel c within left) := by
  induction fuel generalizing c within left with
  | zero => exact allSafe_nil
  | succ fuel ih =>
    rw [readChainIo]
    refine AllSafe.ite (fun _ => allSafe_nil) fun more => ?_
    rcases not_or.mp more with ⟨some, hc⟩
    have hc : inChain c = true := by simpa using hc
    have inside := on.inside
    have sector := data_sector hc h (show within / 512 < f.spc by omega)
    have lt := Nat.mod_lt within (show 0 < 512 by decide)
    dsimp only
    rw [allSafe_append, allSafe_cons, allSafe_cons, allSafe_cons]
    refine ⟨⟨?_, ?_, ?_, allSafe_nil⟩, AllSafe.ite (fun _ => ?_) fun _ => ?_⟩
    · show f.firstData + (c - 2) * f.spc + within / 512 < sectors
      omega
    · show within % 512 + min (512 - within % 512) left - 1 < 512
      omega
    · show len - left + min (512 - within % 512) left - 1 < len
      omega
    · rw [allSafe_append]
      refine ⟨fatGetIo_safe on sound (h hc), ih (chained.starts h hc) ?_ (by omega)⟩
      have := f.spc_pos
      omega
    · exact ih h (by omega) (by omega)

theorem f12ReadIo_safe (chained : Chained f d) {e : F12Entry} {cur : F12Cursor} {off len : Nat}
    (first : f.Starts e.firstCluster) (at_cur : cur.first = e.firstCluster → f.Starts cur.cluster) :
    AllSafe f sectors (f12ReadIo f d e cur off len) := by
  unfold f12ReadIo
  refine AllSafe.ite (fun _ => allSafe_nil) fun _ => ?_
  dsimp only
  generalize (if e.size < (off + len) % 2 ^ 32 then e.size - off else len) = len'
  generalize hc : (if cur.first = e.firstCluster ∧ 2 ≤ cur.cluster ∧ cur.at_ ≤ off then cur.cluster
    else e.firstCluster) = c
  generalize hb : (if cur.first = e.firstCluster ∧ 2 ≤ cur.cluster ∧ cur.at_ ≤ off then cur.at_
    else 0) = base
  have starts : f.Starts c := by
    rw [← hc]
    split
    · rename_i resumes
      exact at_cur resumes.1
    · exact first
  have before : base ≤ off := by
    rw [← hb]
    split
    · rename_i resumes
      exact resumes.2.2
    · exact Nat.zero_le _
  have spc := f.spc_pos
  have within : off - (base + (off - base) / (f.spc * 512) * (f.spc * 512)) < f.spc * 512 := by
    have division := Nat.mod_add_div' (off - base) (f.spc * 512)
    have lt := Nat.mod_lt (off - base) (show 0 < f.spc * 512 by omega)
    omega
  rw [allSafe_append]
  exact ⟨followIo_safe on sound chained _ starts,
    readChainIo_safe on sound chained (chained.follow _ starts) within le_rfl⟩

theorem freeChainIo_safe (chained : Chained f d) {fuel : Nat} (h : f.Starts c) :
    AllSafe f sectors (freeChainIo f fuel d c) := by
  induction fuel generalizing d c with
  | zero => exact allSafe_nil
  | succ fuel ih =>
    rw [freeChainIo]
    refine AllSafe.ite (fun hc => ?_) fun _ => allSafe_nil
    rw [allSafe_append, allSafe_append]
    have freed := fatSet_kept sound chained (h hc) (by decide : 0 < 4096) fun no =>
      absurd no (by decide)
    exact ⟨⟨fatGetIo_safe on sound (h hc), fatSetIo_safe on sound (h hc)⟩,
      ih freed.chained (chained.starts h hc)⟩

theorem f12FreeBytesIo_safe : AllSafe f sectors (f12FreeBytesIo f) := by
  refine allSafe_flatMap fun c hc => fatGetIo_safe on sound ?_
  rw [List.mem_range'_1] at hc
  omega

/-! ### Writing a file -/

theorem allocClusterIo_safe {after : Nat} (h : after ≠ 0 → f.Has after) :
    AllSafe f sectors (allocClusterIo f d after) := by
  unfold allocClusterIo
  dsimp only
  have small : ∀ c ∈ List.range' 2 f.clusters, c < f.clusters + 2 := by
    intro c hc
    rw [List.mem_range'_1] at hc
    omega
  rw [allSafe_append]
  constructor
  · exact allSafe_flatMap fun c hc =>
      fatGetIo_safe on sound (small c ((List.takeWhile_sublist _).subset hc))
  · split
    · exact allSafe_nil
    · rename_i c found
      have lt := small c (List.mem_of_find?_eq_some found)
      rw [allSafe_append, allSafe_append]
      exact ⟨⟨fatGetIo_safe on sound lt, fatSetIo_safe on sound lt⟩,
        AllSafe.ite (fun some => fatSetIo_safe on sound (h some).2) fun _ => allSafe_nil⟩

omit sound in
theorem writeClusterIo_safe {src : Nat → Nat → List UInt8} {size count sn done : Nat}
    (has : f.Has c) (hs : sn + count ≤ f.spc) :
    AllSafe f sectors (writeClusterIo f src size c count sn done) := by
  have inside := on.inside
  have lt := f.clusters_lt
  have chain : inChain c = true := inChain_iff.mpr ⟨has.1, by unfold F12.Has at has; omega⟩
  induction count generalizing sn done with
  | zero => exact allSafe_nil
  | succ count ih =>
    rw [writeClusterIo]
    refine AllSafe.ite (fun _ => allSafe_nil) fun more => ?_
    dsimp only
    rw [allSafe_cons]
    refine ⟨?_, AllSafe.ite (fun _ => allSafe_nil) fun _ => ?_⟩
    · show min 512 (size - done) - 1 < 512
      omega
    have sector := data_sector chain (fun _ => has.2) (show sn < f.spc by omega)
    rw [allSafe_cons]
    refine ⟨⟨by omega, ?_, ?_⟩, ih (by omega)⟩
    · show f.firstData * 512 ≤ _
      exact Nat.mul_le_mul_right _ (by omega)
    · show _ ≤ (f.firstData + f.clusters * f.spc) * 512
      omega

theorem writeDataIo_safe (chained : Chained f d) {src : Nat → Nat → List UInt8}
    {size fuel first prev done : Nat} (hf : first ≠ 0 → f.Has first) (hp : prev ≠ 0 → f.Has prev) :
    AllSafe f sectors (writeDataIo f src size fuel first prev done d) := by
  induction fuel generalizing first prev done d with
  | zero => exact allSafe_nil
  | succ fuel ih =>
    rw [writeDataIo]
    refine AllSafe.ite (fun _ => allSafe_nil) fun _ => ?_
    rw [allSafe_append]
    refine ⟨allocClusterIo_safe on sound hp, ?_⟩
    cases got : allocCluster f d prev with
    | none =>
      exact AllSafe.ite (fun some => freeChainIo_safe on sound chained fun _ => (hf some).2)
        fun _ => allSafe_nil
    | some r =>
      rcases allocCluster_kept sound chained hp got with ⟨has, taken⟩
      have first' : f.Has (if first = 0 then r.1 else first) := by
        split
        · exact has
        · exact hf ‹_›
      have written := writeCluster_kept sound src size r.1 f.spc 0 done taken.chained
      dsimp only
      rw [allSafe_append]
      refine ⟨writeClusterIo_safe on has (by omega), ?_⟩
      cases out : writeCluster f src size r.1 f.spc 0 done r.2 with
      | mk o d' =>
        rw [out] at written
        cases o with
        | none => exact freeChainIo_safe on sound written.chained fun _ => first'.2
        | some done' => exact ih written.chained (fun _ => first') fun _ => has

end Table

end RPCortex.Fat12
