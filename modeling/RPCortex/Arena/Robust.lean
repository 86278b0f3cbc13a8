import RPCortex.Arena.Heap

/-! What the allocator does when the headers hold anything.  Nothing checks them, so each call is
safe exactly when the walk over the headers that it follows ends, and the header words that it
writes lie in the arena. -/

namespace RPCortex.PackageHeap

open Lib

inductive Call
  | alloc (n : UInt32)
  | free (p : UInt32)
  | used
  | largest

/-- A call in an arena whose memory holds `bytes`: the pointer that it returns, if it returns one,
and the addresses of the words that it writes. -/
def Call.run (fuel : Nat) (a : Arena) (bytes : Nat → UInt8) :
    Call → Option (Option UInt32 × List UInt32)
  | .alloc n => (arenaAlloc fuel a n ⟨bytes, []⟩).map fun r => (r.1, r.2.written)
  | .free p => (arenaFree fuel a p ⟨bytes, []⟩).map fun h => (none, h.written)
  | .used => (arenaUsed fuel a ⟨bytes, []⟩).map fun _ => (none, [])
  | .largest => (arenaLargest fuel a ⟨bytes, []⟩).map fun _ => (none, [])

/-- The word at `w` lies in the arena. -/
def WordInside (a : Arena) (w : UInt32) : Prop :=
  a.base ≤ w ∧ w.toNat + 4 ≤ a.base.toNat + a.size.toNat

/-- The address `p` lies in the arena. -/
def Inside (a : Arena) (p : UInt32) : Prop := a.base ≤ p ∧ p < a.base + a.size

/-- The call terminates, writes only in the arena and returns no pointer to anywhere else. -/
def Call.Safe (a : Arena) (bytes : Nat → UInt8) (c : Call) : Prop :=
  ∃ fuel p written, c.run fuel a bytes = some (p, written) ∧
    (∀ w ∈ written, WordInside a w) ∧ ∀ q, p = some q → Inside a q

/-- The `k`-th block that the headers lead to. -/
def block (a : Arena) (h : Heap) (k : Nat) : Option UInt32 := nth (next a h) a.base k

/-- The heap after the block at `b` was marked free and took in `i` blocks behind it. -/
def absorbed (h : Heap) (b : UInt32) : Nat → Heap
  | 0 => h.setFree b 1
  | i + 1 =>
    let h := absorbed h b i
    h.setSize b (h.blockSize b + h.blockSize (b + h.blockSize b))

/-- What the block at `b` has behind it is the end of the arena or not free. -/
def Bounded (a : Arena) (h : Heap) (b : UInt32) : Prop :=
  ∀ n, next a h b = some n → h.blockFree n = 0

/-- What the headers have to be like for a call. -/
def Call.Orderly (a : Arena) (bytes : Nat → UInt8) : Call → Prop
  | .alloc n =>
    let h : Heap := ⟨bytes, []⟩
    let want := wanted n
    a.size = 0 ∨ n = 0 ∨ want < n ∨
      -- the blocks end and none of them fits
      (∃ k, block a h k = none ∧ Passes (next a h) (fits h want) a.base k) ∨
      -- the first that fits has its header in the arena, and so has what is split off
      ∃ k b, block a h k = some b ∧ fits h want b = true ∧
        Passes (next a h) (fits h want) a.base k ∧ WordInside a (b + 4) ∧ Inside a (b + hdr) ∧
        (splits h want b = true →
          WordInside a b ∧ WordInside a (b + want) ∧ WordInside a (b + want + 4))
  | .free p =>
    let h : Heap := ⟨bytes, []⟩
    let b := p - hdr
    p = 0 ∨ a.size = 0 ∨ ¬Inside a b ∨
      -- the blocks end and this is none of them
      (∃ k, block a h k = none ∧ ∀ i < k, block a h i ≠ some b) ∨
      -- it is a block, and free already, or its header is in the arena and the blocks that it
      -- takes in come to an end
      (∃ k, block a h k = some b) ∧
        (h.blockFree b ≠ 0 ∨
          WordInside a (b + 4) ∧ (Bounded a (absorbed h b 0) b ∨ WordInside a b) ∧
            ∃ i, Bounded a (absorbed h b i) b)
  | .used | .largest => a.size = 0 ∨ ∃ k, block a ⟨bytes, []⟩ k = none

variable {a : Arena} {h : Heap} {b p : UInt32} {fuel : Nat}

/-- The words that a block's taking writes. -/
theorem written_take (h : Heap) (want b : UInt32) :
    (take h want b).written =
      if splits h want b then [b + 4, b, b + want + 4, b + want] ++ h.written
      else (b + 4) :: h.written := by
  unfold take
  split
  · rfl
  · rfl

/-- The merging loop ends when the blocks that it takes in do. -/
theorem merge_iff (i : Nat) :
    (∃ fuel r, merge a b fuel (absorbed h b i) = some r) ↔
      ∃ j, i ≤ j ∧ Bounded a (absorbed h b j) b := by
  constructor
  · rintro ⟨fuel, r, hr⟩
    induction fuel generalizing i with
    | zero => cases hr
    | succ fuel ih =>
      rw [merge_succ] at hr
      cases hn : next a (absorbed h b i) b with
      | none => exact ⟨i, Nat.le_refl i, fun n h => by rw [hn] at h; cases h⟩
      | some n =>
        simp only [hn] at hr
        split at hr
        · rename_i taken
          exact ⟨i, Nat.le_refl i, fun m h => by rw [hn] at h; cases h; exact taken⟩
        · obtain rfl : b + (absorbed h b i).blockSize b = n := by
            unfold next at hn
            split at hn
            · exact Option.some.inj hn
            · cases hn
          obtain ⟨j, hij, bounded⟩ := ih (i + 1) hr
          exact ⟨j, by omega, bounded⟩
  · rintro ⟨j, hij, bounded⟩
    induction hd : j - i generalizing i with
    | zero =>
      obtain rfl : i = j := by omega
      refine ⟨1, absorbed h b i, ?_⟩
      rw [merge_succ]
      cases hn : next a (absorbed h b i) b with
      | none => rfl
      | some n => simp only [bounded n hn, if_true]
    | succ d ih =>
      obtain ⟨fuel, r, hr⟩ := ih (i + 1) (by omega) (by omega)
      cases hn : next a (absorbed h b i) b with
      | none => exact ⟨1, absorbed h b i, by rw [merge_succ, hn]⟩
      | some n =>
        have hnext : b + (absorbed h b i).blockSize b = n := by
          unfold next at hn
          split at hn
          · exact Option.some.inj hn
          · cases hn
        by_cases taken : (absorbed h b i).blockFree n = 0
        · exact ⟨1, absorbed h b i, by rw [merge_succ, hn]; exact if_pos taken⟩
        · refine ⟨fuel + 1, r, ?_⟩
          rw [merge_succ, hn]
          simp only [if_neg taken]
          rw [← hnext]
          exact hr

theorem merge_mono {r : Heap} {more : Nat} (hr : merge a b fuel h = some r) (enough : fuel ≤ more) :
    merge a b more h = some r := by
  induction fuel generalizing h more with
  | zero => cases hr
  | succ fuel ih =>
    obtain ⟨more, rfl⟩ : ∃ n, more = n + 1 := ⟨more - 1, by omega⟩
    rw [merge_succ] at hr ⊢
    split
    · rename_i hn
      rwa [hn] at hr
    · rename_i n hn
      simp only [hn] at hr
      split
      · rename_i taken
        rwa [if_pos taken] at hr
      · rename_i free
        rw [if_neg free] at hr
        exact ih hr (by omega)

/-- The merging loop writes nothing but the size of its block. -/
theorem written_merge {r : Heap} (hr : merge a b fuel h = some r) {w : UInt32}
    (hw : w ∈ r.written) : w = b ∨ w ∈ h.written := by
  induction fuel generalizing h with
  | zero => cases hr
  | succ fuel ih =>
    rw [merge_succ] at hr
    split at hr
    · cases hr
      exact .inr hw
    · split at hr
      · cases hr
        exact .inr hw
      · rcases ih hr with rfl | hw
        · exact .inl rfl
        · rcases List.mem_cons.mp hw with rfl | hw
          · exact .inl rfl
          · exact .inr hw

theorem mem_written_merge {r : Heap} (hr : merge a b fuel h = some r) {w : UInt32}
    (hw : w ∈ h.written) : w ∈ r.written := by
  induction fuel generalizing h with
  | zero => cases hr
  | succ fuel ih =>
    rw [merge_succ] at hr
    split at hr
    · cases hr
      exact hw
    · split at hr
      · cases hr
        exact hw
      · exact ih hr (List.mem_cons_of_mem _ hw)

/-- Without a block to take in, the merging loop does nothing. -/
theorem merge_bounded (fuel : Nat) (bounded : Bounded a h b) :
    merge a b (fuel + 1) h = some h := by
  rw [merge_succ]
  cases hn : next a h b with
  | none => rfl
  | some n => simp only [bounded n hn, if_true]

/-- With one, it writes the size of its block. -/
theorem mem_written_of_not_bounded (unbounded : ¬Bounded a h b) {r : Heap}
    (hr : merge a b fuel h = some r) : b ∈ r.written := by
  cases fuel with
  | zero => cases hr
  | succ fuel =>
    rw [merge_succ] at hr
    cases hn : next a h b with
    | none => exact absurd (fun n h => by rw [hn] at h; cases h) unbounded
    | some n =>
      simp only [hn] at hr
      split at hr
      · rename_i taken
        exact absurd (fun m h => by rw [hn] at h; cases h; exact taken) unbounded
      · exact mem_written_merge hr (List.mem_cons_self ..)

section Calls

variable {bytes : Nat → UInt8} {n : UInt32}

theorem alloc_safe_iff :
    (Call.alloc n).Safe a bytes ↔ (Call.alloc n).Orderly a bytes := by
  generalize hh : (⟨bytes, []⟩ : Heap) = h
  have unwritten : h.written = [] := by rw [← hh]
  simp only [Call.Safe, Call.Orderly, Call.run, arenaAlloc, hh]
  by_cases idle : a.size = 0 ∨ n = 0 ∨ wanted n < n
  · constructor
    · intro _
      rcases idle with h0 | h0 | h0
      · exact .inl h0
      · exact .inr (.inl h0)
      · exact .inr (.inr (.inl h0))
    · intro _
      exact ⟨0, none, [], by simp [if_pos idle, unwritten], by simp, by simp⟩
  · simp only [if_neg idle]
    rw [not_or, not_or] at idle
    constructor
    · rintro ⟨fuel, p, written, hrun, inside, pointer⟩
      right; right; right
      cases hs : search (next a h) (fits h (wanted n)) fuel (some a.base) with
      | none => rw [hs] at hrun; cases hrun
      | some found =>
        cases found with
        | none => exact .inl (search_none_iff.mp ⟨fuel, hs⟩)
        | some b =>
          obtain ⟨k, hk, here, pass⟩ := search_some_iff.mp ⟨fuel, hs⟩
          simp only [hs, Option.map_some, Option.some.injEq, Prod.mk.injEq] at hrun
          obtain ⟨rfl, rfl⟩ := hrun
          rw [written_take, unwritten] at inside
          refine .inr ⟨k, b, hk, here, pass, ?_, pointer _ rfl, ?_⟩
          · apply inside
            split
            · simp
            · simp
          · intro split
            rw [if_pos split] at inside
            exact ⟨inside _ (by simp), inside _ (by simp), inside _ (by simp)⟩
    · rintro (h0 | h0 | h0 | ended | ⟨k, b, hk, here, pass, free, pointer, rest⟩)
      · exact absurd h0 idle.1
      · exact absurd h0 idle.2.1
      · exact absurd h0 idle.2.2
      · obtain ⟨fuel, hs⟩ := search_none_iff.mpr ended
        exact ⟨fuel, none, [], by simp [hs, unwritten], by simp, by simp⟩
      · obtain ⟨fuel, hs⟩ := search_some_iff.mpr ⟨k, hk, here, pass⟩
        refine ⟨fuel, some (b + hdr), (take h (wanted n) b).written, by simp [hs], ?_, ?_⟩
        · intro w hw
          rw [written_take, unwritten] at hw
          split at hw
          · rename_i split
            obtain ⟨size, restSize, restFree⟩ := rest split
            simp only [List.append_nil, List.mem_cons, List.not_mem_nil, or_false] at hw
            rcases hw with rfl | rfl | rfl | rfl
            · exact free
            · exact size
            · exact restFree
            · exact restSize
          · obtain rfl := List.mem_singleton.mp hw
            exact free
        · rintro q hq
          obtain rfl := Option.some.inj hq
          exact pointer

/-- A walk that comes to `c` comes to it a first time. -/
theorem exists_passes {b c : UInt32} {k : Nat} (hk : nth (next a h) b k = some c) :
    ∃ k, nth (next a h) b k = some c ∧ Passes (next a h) (· = c) b k := by
  induction k using Nat.strong_induction_on with
  | _ k ih =>
    by_cases pass : Passes (next a h) (· = c) b k
    · exact ⟨k, hk, pass⟩
    · simp only [Passes, not_forall] at pass
      obtain ⟨i, hi, d, hd, same⟩ := pass
      obtain rfl : d = c := by simpa using same
      exact ih i hi hd

theorem passes_eq_iff {b c : UInt32} {k : Nat} :
    Passes (next a h) (· = c) b k ↔ ∀ i < k, nth (next a h) b i ≠ some c := by
  constructor
  · intro pass i hi hc
    simpa using pass i hi c hc
  · intro away i hi d hd
    have : d ≠ c := by
      rintro rfl
      exact away i hi hd
    simpa using this

theorem outside_iff : (b < a.base ∨ a.base + a.size ≤ b) ↔ ¬Inside a b := by
  rw [Inside, not_and_or, UInt32.not_le, UInt32.not_lt]

theorem free_safe_iff : (Call.free p).Safe a bytes ↔ (Call.free p).Orderly a bytes := by
  generalize hh : (⟨bytes, []⟩ : Heap) = h
  have unwritten : h.written = [] := by rw [← hh]
  simp only [Call.Safe, Call.Orderly, Call.run, arenaFree, hh]
  generalize p - hdr = b
  by_cases idle : p = 0 ∨ a.size = 0 ∨ b < a.base ∨ a.base + a.size ≤ b
  · constructor
    · intro _
      rcases idle with h0 | h0 | h0
      · exact .inl h0
      · exact .inr (.inl h0)
      · exact .inr (.inr (.inl (outside_iff.mp h0)))
    · intro _
      exact ⟨0, none, [], by simp [if_pos idle, unwritten], by simp, by simp⟩
  · simp only [if_neg idle]
    rw [not_or, not_or] at idle
    constructor
    · rintro ⟨fuel, q, written, hrun, inside, -⟩
      right; right; right
      cases hs : search (next a h) (· = b) fuel (some a.base) with
      | none => rw [hs] at hrun; cases hrun
      | some found =>
        cases found with
        | none =>
          obtain ⟨k, hk, pass⟩ := search_none_iff.mp ⟨fuel, hs⟩
          exact .inl ⟨k, hk, passes_eq_iff.mp pass⟩
        | some c =>
          obtain ⟨k, hk, here, -⟩ := search_some_iff.mp ⟨fuel, hs⟩
          obtain rfl : c = b := by simpa using here
          refine .inr ⟨⟨k, hk⟩, ?_⟩
          by_cases free : h.blockFree c ≠ 0
          · exact .inl free
          · right
            simp only [hs, if_neg free] at hrun
            obtain ⟨r, hr, hw⟩ := Option.map_eq_some_iff.mp hrun
            obtain rfl : r.written = written := congrArg Prod.snd hw
            obtain ⟨j, -, bounded⟩ := (merge_iff (a := a) (h := h) (b := c) 0).mp ⟨fuel, r, hr⟩
            refine ⟨inside _ (mem_written_merge hr (by simp [Heap.setFree])), ?_, j, bounded⟩
            by_cases now : Bounded a (absorbed h c 0) c
            · exact .inl now
            · exact .inr (inside _ (mem_written_of_not_bounded now hr))
    · rintro (h0 | h0 | h0 | ⟨k, hk, away⟩ | ⟨⟨k, hk⟩, ready⟩)
      · exact absurd h0 idle.1
      · exact absurd h0 idle.2.1
      · exact absurd (outside_iff.mpr h0) idle.2.2
      · obtain ⟨fuel, hs⟩ := search_none_iff.mpr ⟨k, hk, passes_eq_iff.mpr away⟩
        exact ⟨fuel, none, [], by simp [hs, unwritten], by simp, by simp⟩
      · obtain ⟨k, hk, pass⟩ := exists_passes hk
        obtain ⟨fuel, hs⟩ := search_some_iff.mpr ⟨k, hk, by simp, pass⟩
        by_cases free : h.blockFree b ≠ 0
        · exact ⟨fuel, none, [], by simp [hs, if_pos free, unwritten], by simp, by simp⟩
        · obtain ⟨wordFree, wordSize, i, bounded⟩ := ready.resolve_left free
          obtain ⟨fuel', r, hr⟩ := (merge_iff 0).mpr ⟨i, Nat.zero_le i, bounded⟩
          have found := search_mono hs (Nat.le_max_left fuel fuel')
          have merged := merge_mono hr (Nat.le_max_right fuel fuel')
          refine ⟨max fuel fuel', none, r.written, ?_, ?_, by simp⟩
          · simp only [found, if_neg free]
            change (merge a b _ (absorbed h b 0)).map _ = _
            rw [merged]
            rfl
          · intro w hw
            rcases wordSize with now | wordSize
            · -- nothing is taken in, and only the flag is written
              have same : r = absorbed h b 0 := by
                have := merge_bounded fuel' now
                rw [merge_mono hr (Nat.le_succ _)] at this
                exact Option.some.inj this
              rw [same] at hw
              obtain rfl : w = b + 4 := by simpa [absorbed, Heap.setFree, unwritten] using hw
              exact wordFree
            · rcases written_merge hr hw with rfl | hw
              · exact wordSize
              · obtain rfl : w = b + 4 := by simpa [absorbed, Heap.setFree, unwritten] using hw
                exact wordFree

theorem used_safe_iff : Call.used.Safe a bytes ↔ Call.used.Orderly a bytes := by
  simp only [Call.Safe, Call.Orderly, Call.run, arenaUsed]
  by_cases idle : a.size = 0
  · simp only [idle, if_true, true_or, iff_true]
    exact ⟨0, none, [], rfl, by simp, by simp⟩
  · simp only [idle, if_false, false_or]
    refine Iff.trans ?_ (foldWalk_iff (f := fun used b =>
      if (⟨bytes, []⟩ : Heap).blockFree b = 0 then used + (⟨bytes, []⟩ : Heap).blockSize b
      else used) 0)
    constructor
    · rintro ⟨fuel, p, written, hrun, -⟩
      obtain ⟨t, ht, -⟩ := Option.map_eq_some_iff.mp hrun
      exact ⟨fuel, t, ht⟩
    · rintro ⟨fuel, t, ht⟩
      exact ⟨fuel, none, [], by rw [ht]; rfl, by simp, by simp⟩

theorem largest_safe_iff : Call.largest.Safe a bytes ↔ Call.largest.Orderly a bytes := by
  simp only [Call.Safe, Call.Orderly, Call.run, arenaLargest]
  by_cases idle : a.size = 0
  · simp only [idle, if_true, true_or, iff_true]
    exact ⟨0, none, [], rfl, by simp, by simp⟩
  · simp only [idle, if_false, false_or]
    refine Iff.trans ?_ (foldWalk_iff (f := fun best b =>
      if (⟨bytes, []⟩ : Heap).blockFree b ≠ 0 ∧ best < (⟨bytes, []⟩ : Heap).blockSize b then
        (⟨bytes, []⟩ : Heap).blockSize b
      else best) 0)
    constructor
    · rintro ⟨fuel, p, written, hrun, -⟩
      obtain ⟨t, ht, -⟩ := Option.map_eq_some_iff.mp hrun
      obtain ⟨best, hbest, -⟩ := Option.map_eq_some_iff.mp ht
      exact ⟨fuel, best, hbest⟩
    · rintro ⟨fuel, t, ht⟩
      exact ⟨fuel, none, [], by rw [ht]; rfl, by simp, by simp⟩

/-- Whatever the memory holds, a call terminates, writes only in the arena and returns no pointer to
anywhere else exactly when the headers that it follows are orderly. -/
theorem safe_iff_orderly (a : Arena) (bytes : Nat → UInt8) (c : Call) :
    c.Safe a bytes ↔ c.Orderly a bytes := by
  cases c with
  | alloc n => exact alloc_safe_iff
  | free p => exact free_safe_iff
  | used => exact used_safe_iff
  | largest => exact largest_safe_iff

/-- A header of size 0 leads to itself: with a memory of zeros the walk does not end. -/
theorem not_all_calls_safe :
    ¬∀ (a : Arena) (bytes : Nat → UInt8) (c : Call), c.Safe a bytes := by
  intro all
  have safe := all ⟨0x1000, 64, by decide⟩ (fun _ => 0) .used
  rcases used_safe_iff.mp safe with idle | ⟨k, hk⟩
  · exact absurd idle (by decide)
  · have circle : next ⟨0x1000, 64, by decide⟩ ⟨fun _ => 0, []⟩ 0x1000 = some 0x1000 := by
      decide +kernel
    have stays : ∀ k, block ⟨0x1000, 64, by decide⟩ ⟨fun _ => 0, []⟩ k = some 0x1000 := by
      intro k
      induction k with
      | zero => rfl
      | succ k ih =>
        rw [block] at ih ⊢
        rw [nth, ih]
        exact circle
    rw [stays k] at hk
    cases hk

end Calls

end RPCortex.PackageHeap
