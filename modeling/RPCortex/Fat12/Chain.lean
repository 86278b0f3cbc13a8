import RPCortex.Fat12.Cursor
import RPCortex.Fat12.Frame

/-! The data of a file behind its chain, on a volume with clusters of one sector: what `f12_write` puts
there, and what `f12_read` makes of it. -/

namespace RPCortex.Fat12

open Lib

variable {f : F12} {d d' : Disk} {c e v k : Nat} {data : List UInt8}

/-- The sector of a cluster. -/
def F12.lbaOf (f : F12) (c : Nat) : Nat := f.firstData + (c - 2)

/-- The chain from `c` on holds `data`. -/
inductive Holds (f : F12) (d : Disk) : Nat → List UInt8 → Prop
  | nil {c : Nat} : Holds f d c []
  | cons {c : Nat} {part rest : List UInt8} (has : f.Has c)
      (sector : (d.read (f.lbaOf c)).take part.length = part) (most : part.length ≤ 512)
      (full : rest ≠ [] → part.length = 512) (next : Holds f d (fatGet f d c) rest) :
      Holds f d c (part ++ rest)

/-- What does not change between two media as far as a cluster is concerned. -/
structure SameAt (f : F12) (d d' : Disk) (c : Nat) : Prop where
  entry : fatGet f d' c = fatGet f d c
  sector : d'.read (f.lbaOf c) = d.read (f.lbaOf c)

theorem Holds.congr (h : Holds f d c data) (same : ∀ c, f.Has c → SameAt f d d' c) :
    Holds f d' c data := by
  induction h with
  | nil => exact .nil
  | cons has sector most full next ih =>
    have here := same _ has
    refine .cons has ?_ most full ?_
    · rw [here.sector]
      exact sector
    · rw [here.entry]
      exact ih

theorem F12.Has.inChain (h : f.Has c) : inChain c = true := by
  have few := f.clusters_lt
  rw [inChain_iff]
  unfold F12.Has at h
  omega

/-! ### Reading -/

/-- The clusters of the chain begin with what it holds. -/
theorem Holds.chainBytes (spc : f.spc = 1) (h : Holds f d c data) {n : Nat} (enough : data.length ≤ n * 512) :
    data <+: Fat12.chainBytes f d n c := by
  induction h generalizing n with
  | nil => exact List.nil_prefix
  | @cons c part rest has sector most full next ih =>
    have cluster : clusterBytes f d c = d.read (f.lbaOf c) := by
      rw [clusterBytes, Disk.read, F12.lbaOf, spc, Nat.mul_one, Nat.one_mul]
    have front : part <+: d.read (f.lbaOf c) := by
      rw [← sector]
      exact List.take_prefix _ _
    cases n with
    | zero =>
      rw [Nat.zero_mul, Nat.le_zero, List.length_eq_zero_iff] at enough
      rw [enough]
      exact List.nil_prefix
    | succ n =>
      rw [Fat12.chainBytes, if_pos has.inChain, cluster]
      by_cases more : rest = []
      · rw [more, List.append_nil]
        exact front.trans (List.prefix_append _ _)
      · have len := full more
        rw [List.length_append] at enough
        rw [front.eq_of_length (by rw [len, Disk.read, length_window])]
        exact (List.prefix_append_right_inj _).mpr (ih (by omega))

theorem Holds.f12Read (spc : f.spc = 1) {x : F12Entry} {cur : F12Cursor} {off len : Nat}
    (h : Holds f d x.firstCluster data) (file : x.isDir = false) (size : x.size = data.length)
    (fits : off + len < 2 ^ 32) (on : CursorOn f d x cur) :
    (Fat12.f12Read f d x cur off len).1 = (data.drop off).take len := by
  by_cases past : x.size ≤ off
  · rw [Fat12.f12Read, if_pos (.inr past), List.drop_eq_nil_of_le (by omega), List.take_nil]
  have clip : clipped x off len = min len (data.length - off) := by
    rw [clipped, Nat.mod_eq_of_lt fits]
    split <;> omega
  have cluster : f.clusterSize = 512 := by rw [F12.clusterSize, spc, Nat.one_mul]
  obtain ⟨back, whole⟩ := h.chainBytes spc (n := data.length) (by omega)
  have chain : (Fat12.chainBytes f d (off + min len (data.length - off)) x.firstCluster).take
      (off + min len (data.length - off)) = data.take (off + min len (data.length - off)) := by
    rw [take_chainBytes (m := data.length) (by rw [cluster]; omega) (by rw [cluster]; omega), ← whole,
      List.take_append_of_le_length (by omega)]
  rw [f12Read_bytes file (Nat.not_le.mp past) on, clip, List.take_drop, chain, ← List.take_drop,
    ← List.length_drop, ← List.take_eq_take_min]

/-! ### Writing -/

/-- A callback that reads from `data`. -/
def slice (data : List UInt8) (off want : Nat) : List UInt8 := (data.drop off).take want

theorem root_le_lbaOf (sound : f.Sound) (c : Nat) : f.firstRoot * 512 ≤ f.lbaOf c * 512 :=
  Nat.mul_le_mul_right _ (((Nat.le_add_right _ _).trans sound.data).trans (Nat.le_add_right _ _))

theorem table_lt_lbaOf (sound : f.Sound) (hc : c < f.clusters + 2) (e : Nat) :
    f.fatAt (c + c / 2 + 1) < f.lbaOf e * 512 :=
  lt_of_lt_of_le (sound.table c hc) (root_le_lbaOf sound e)

theorem fatSet_sector (sound : f.Sound) (hc : c < f.clusters + 2) :
    (fatSet f d c v).read (f.lbaOf e) = d.read (f.lbaOf e) :=
  window_congr fun _ _ =>
    fatSet_outside (.inr (lt_of_lt_of_le (table_lt_lbaOf sound hc e) (Nat.le_add_right _ _)))

theorem fatSet_sameAt (sound : f.Sound) (hc : c < f.clusters + 2) (lt : v < 4096) (ne : e ≠ c) :
    SameAt f d (fatSet f d c v) e := by
  refine ⟨?_, fatSet_sector sound hc⟩
  rw [fatGet_fatSet lt, if_neg ne]

theorem SameAt.trans {d'' : Disk} (h : SameAt f d d' c) (h' : SameAt f d' d'' c) : SameAt f d d'' c :=
  ⟨h'.entry.trans h.entry, h'.sector.trans h.sector⟩

theorem write_sector_entry (sound : f.Sound) (hc : e < f.clusters + 2) (b : List UInt8) :
    fatGet f (d.write (f.lbaOf c) b) e = fatGet f d e :=
  fatGet_congr sound hc fun _ ha => store_outside (.inl (lt_of_lt_of_le ha (root_le_lbaOf sound c)))

theorem write_sector_sameAt (sound : f.Sound) {b : List UInt8} (len : b.length = 512) (he : f.Has e)
    (hc : f.Has c) (ne : e ≠ c) : SameAt f d (d.write (f.lbaOf c) b) e := by
  have apart : f.lbaOf e ≠ f.lbaOf c := by
    have two := he.1
    have two' := hc.1
    unfold F12.lbaOf
    omega
  refine ⟨write_sector_entry sound he.2 b, window_store_outside ?_⟩
  rw [len]
  omega

theorem allocCluster_sameAt (sound : f.Sound) {after : Nat} {r : Nat × Disk}
    (prev : after ≠ 0 → f.Has after ∧ fatGet f d after ≠ 0) (h : allocCluster f d after = some r) :
    f.Has r.1 ∧ fatGet f d r.1 = 0 ∧ fatGet f r.2 r.1 = 0xFFF ∧ (after ≠ 0 → fatGet f r.2 after = r.1) ∧
      (∀ e, r.2.read (f.lbaOf e) = d.read (f.lbaOf e)) ∧
      ∀ e, e ≠ r.1 → e ≠ after → SameAt f d r.2 e := by
  rcases Option.map_eq_some_iff.mp h with ⟨c, found, rfl⟩
  have mem := List.mem_of_find?_eq_some found
  rw [List.mem_range'_1] at mem
  have has : f.Has c := ⟨mem.1, by omega⟩
  have few := f.clusters_lt
  have small : c < 4096 := by omega
  have free : fatGet f d c = 0 := by simpa using List.find?_some found
  have taken : fatGet f (fatSet f d c 0xFFF) c = 0xFFF := by rw [fatGet_fatSet (by decide), if_pos rfl]
  refine ⟨has, free, ?_⟩
  dsimp only
  split
  · rename_i some_
    rcases prev some_ with ⟨on, used⟩
    have ne : after ≠ c := fun same => used (same ▸ free)
    refine ⟨?_, fun _ => ?_, fun e => ?_, fun e he he' => ?_⟩
    · rw [fatGet_fatSet small, if_neg ne.symm, taken]
    · rw [fatGet_fatSet small, if_pos rfl]
    · rw [fatSet_sector sound on.2, fatSet_sector sound has.2]
    · exact (fatSet_sameAt sound has.2 (by decide) he).trans (fatSet_sameAt sound on.2 small he')
  · rename_i first
    refine ⟨taken, fun no => absurd no first, fun e => fatSet_sector sound has.2, fun e he _ => ?_⟩
    exact fatSet_sameAt sound has.2 (by decide) he

/-- The sector of a cluster is filled, with zeros behind the data. -/
theorem writeCluster_one (spc : f.spc = 1) {size done : Nat} {src : Nat → Nat → List UInt8}
    (more : done < size) {done' : Nat} (h : writeCluster f src size c f.spc 0 done d = (some done', d')) :
    done' = done + min 512 (size - done) ∧ (src done (min 512 (size - done))).length = min 512 (size - done) ∧
      d' = d.write (f.lbaOf c) (src done (min 512 (size - done)) ++
        List.replicate (512 - min 512 (size - done)) 0) := by
  rw [spc, writeCluster, if_neg (Nat.not_le.mpr more)] at h
  dsimp only at h
  split at h
  · cases h
  · rename_i whole
    rw [writeCluster, spc] at h
    simp only [Nat.mul_one, Nat.add_zero, Prod.mk.injEq, Option.some.injEq] at h
    exact ⟨h.1.symm, not_not.mp whole, h.2.symm⟩

/-- A cluster `c` is taken and filled with `part`, behind the cluster `prev` if there is one. -/
structure Taken (f : F12) (d d' : Disk) (prev c : Nat) (part : List UInt8) : Prop where
  has : f.Has c
  free : fatGet f d c = 0
  used : fatGet f d' c ≠ 0
  sector : (d'.read (f.lbaOf c)).take part.length = part
  others : ∀ e, f.Has e → fatGet f d e ≠ 0 → fatGet f d' e ≠ 0 ∧
    d'.read (f.lbaOf e) = d.read (f.lbaOf e) ∧
    fatGet f d' e = if e = prev then c else fatGet f d e

theorem Taken.nonzero {prev : Nat} {part : List UInt8} (h : Taken f d d' prev c part) : c ≠ 0 := by
  have two := h.has.1
  omega

/-- One round of the loop over the clusters. -/
theorem taken_of_round (sound : f.Sound) (spc : f.spc = 1) {prev done done' : Nat} {d₁ : Disk}
    (on : prev ≠ 0 → f.Has prev ∧ fatGet f d prev ≠ 0) (more : done < data.length)
    (got : allocCluster f d prev = some (c, d₁))
    (out : writeCluster f (slice data) data.length c f.spc 0 done d₁ = (some done', d')) :
    ∃ part, done' = done + part.length ∧ part.length = min 512 (data.length - done) ∧
      data.drop done = part ++ data.drop done' ∧ Taken f d d' prev c part := by
  rcases allocCluster_sameAt sound on got with ⟨has, free, taken, linked, sectors, same⟩
  rcases writeCluster_one spc more out with ⟨rfl, len, rfl⟩
  generalize part : slice data done (min 512 (data.length - done)) = p at len
  generalize bytes : p ++ List.replicate (512 - min 512 (data.length - done)) 0 = b
  have blen : b.length = 512 := by
    rw [← bytes, List.length_append, List.length_replicate, len]
    omega
  refine ⟨p, by rw [len], len, ?_, has, free, ?_, ?_, fun e he inUse => ?_⟩
  · rw [← part, slice, ← List.drop_drop, List.take_append_drop]
  · rw [write_sector_entry sound has.2, taken]
    decide
  · show (window (store d₁.bytes (f.lbaOf c * 512) b) (f.lbaOf c * 512) 512).take p.length = p
    rw [← blen, window_store_same, ← bytes, List.take_left]
  · have ne : e ≠ c := fun eq => inUse (eq ▸ free)
    have wrote := write_sector_sameAt (d := d₁) sound blen he has ne
    have entry : fatGet f d₁ e = if e = prev then c else fatGet f d e := by
      split
      · rename_i last
        have two := he.1
        rw [last, linked (by omega)]
      · exact (same e ne ‹_›).entry
    refine ⟨?_, by rw [wrote.sector, sectors], by rw [wrote.entry, entry]⟩
    rw [wrote.entry, entry]
    have two := has.1
    split
    · omega
    · exact inUse

/-- The loop over the clusters puts the data behind a chain, links it to the cluster before and leaves
every cluster in use alone. -/
theorem writeData_holds (sound : f.Sound) (spc : f.spc = 1) {fuel first prev done : Nat} {first' : Nat}
    (on : prev ≠ 0 → f.Has prev ∧ fatGet f d prev ≠ 0) (enough : data.length - done < fuel)
    (h : writeData f (slice data) data.length fuel first prev done d = (some first', d')) :
    (∀ e, f.Has e → fatGet f d e ≠ 0 → d'.read (f.lbaOf e) = d.read (f.lbaOf e) ∧
      (e ≠ prev → fatGet f d' e = fatGet f d e)) ∧
    (data.length ≤ done → first' = first) ∧
    (done < data.length → ∃ c, f.Has c ∧ first' = (if first = 0 then c else first) ∧
      (prev ≠ 0 → fatGet f d' prev = c) ∧ Holds f d' c (data.drop done)) := by
  induction fuel generalizing first prev done d with
  | zero => exact absurd enough (Nat.not_lt_zero _)
  | succ fuel ih =>
    rw [writeData] at h
    split at h
    · rename_i all
      obtain ⟨rfl, rfl⟩ : first = first' ∧ d = d' := by simpa using h
      exact ⟨fun e _ _ => ⟨rfl, fun _ => rfl⟩, fun _ => rfl, fun no => absurd all (Nat.not_le.mpr no)⟩
    rename_i more
    replace more := Nat.not_le.mp more
    cases got : allocCluster f d prev with
    | none =>
      rw [got] at h
      cases h
    | some r =>
      obtain ⟨c, d₁⟩ := r
      rw [got] at h
      dsimp only at h
      cases out : writeCluster f (slice data) data.length c f.spc 0 done d₁ with
      | mk o d₂ =>
        rw [out] at h
        cases o with
        | none => cases h
        | some done' =>
          rcases taken_of_round sound spc on more got out with ⟨part, next, len, splits, taken⟩
          have full : done' < data.length → part.length = 512 := by omega
          have head : (if first = 0 then c else first) ≠ 0 := by
            split
            · exact taken.nonzero
            · exact ‹_›
          dsimp only at h
          rcases ih (fun _ => ⟨taken.has, taken.used⟩) (by omega) h with ⟨frame, ended, rest⟩
          -- a cluster in use is not the one that was free
          have other (e : Nat) (inUse : fatGet f d e ≠ 0) : e ≠ c := fun eq => inUse (eq ▸ taken.free)
          refine ⟨fun e he inUse => ?_, fun no => absurd more (Nat.not_lt.mpr no),
            fun _ => ⟨c, taken.has, ?_, fun pos => ?_, ?_⟩⟩
          · rcases taken.others e he inUse with ⟨still, sector, entry⟩
            rcases frame e he still with ⟨sector', entry'⟩
            refine ⟨sector'.trans sector, fun last => ?_⟩
            rw [entry' (other e inUse), entry, if_neg last]
          · by_cases last : data.length ≤ done'
            · exact ended last
            · rcases rest (Nat.not_le.mp last) with ⟨c', -, eq, -⟩
              rw [eq, if_neg head]
          · rcases on pos with ⟨he, inUse⟩
            rcases taken.others prev he inUse with ⟨still, -, entry⟩
            rw [(frame prev he still).2 (other prev inUse), entry, if_pos rfl]
          · rw [splits]
            refine .cons taken.has ?_ (len ▸ Nat.min_le_left _ _) ?_ ?_
            · rw [(frame c taken.has taken.used).1]
              exact taken.sector
            · intro behind
              rw [Ne, List.drop_eq_nil_iff, Nat.not_le] at behind
              exact full behind
            · by_cases last : data.length ≤ done'
              · rw [List.drop_eq_nil_of_le last]
                exact .nil
              · rcases rest (Nat.not_le.mp last) with ⟨c', -, -, link, holds⟩
                rw [link taken.nonzero]
                exact holds

end RPCortex.Fat12
