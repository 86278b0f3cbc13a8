import RPCortex.Card.InRange

/-! Reads of a file on a card without errors.  `fatro_read` gives the slice of the file that is asked for,
whatever the cursor of earlier reads says, unless the offset lies in the last cluster below 4 GiB, where
the end of the cluster wraps to zero, or further along the chain than the walk has a budget for. -/

namespace RPCortex.Card

open Lib Fat12

/-- The sectors of a card. -/
abbrev Sectors : Type := Nat → Sector

/-- What a program gives on a card without errors. -/
def serve {α : Type} (d : Sectors) : Reads α → α
  | .ret a => a
  | .ask r go => serve d (go (some (d r.lba)))

section Serve

variable {α β : Type} {d : Sectors}

theorem serve_pure (a : α) : serve d (pure a) = a := rfl

theorem serve_bind {p : Reads α} {g : α → Reads β} : serve d (p >>= g) = serve d (g (serve d p)) := by
  induction p with
  | ret a => rfl
  | ask r go ih => exact ih _

theorem serve_read {volume : Option FatRo} {lba : Nat} :
    serve d (read volume lba) = some (d (lba % 2 ^ 32)) := rfl

end Serve

variable {f : FatRo} {d : Sectors} {k : Cache} {c i j n off budget : Nat}

/-! ### The table -/

/-- The cached sector is the card's. -/
def Cache.Coherent (k : Cache) (d : Sectors) : Prop := k.lba ≠ 0xFFFFFFFF → k.sector = d k.lba

/-- No sector of the table has the number that marks an empty cache. -/
def FatRo.Tabled (f : FatRo) : Prop := ∀ i < f.clusters, (f.firstFat + i) % 2 ^ 32 ≠ 0xFFFFFFFF

/-- A byte of the table. -/
def tableByte (f : FatRo) (d : Sectors) (off : Nat) : UInt8 :=
  (d ((f.firstFat + off / 512) % 2 ^ 32)).1.getD (off % 512) 0

/-- Some bytes of the table. -/
def tableBytes (f : FatRo) (d : Sectors) : (n off : Nat) → List UInt8
  | 0, _ => []
  | n + 1, off => tableByte f d off :: tableBytes f d n (off + 1)

/-- The next cluster, as the card says. -/
def nextCluster (f : FatRo) (d : Sectors) (c : Nat) : Nat :=
  if f.beyond c then 0
  else nextOf f.kind c (tableBytes f d (entryAt f.kind c).1 (entryAt f.kind c).2)

example : Cache.empty.lba = 0xFFFFFFFF := by decide +kernel

theorem serve_fatByte (tabled : f.Tabled) (inside : off / 512 < f.clusters) (coherent : k.Coherent d) :
    ∃ k' : Cache, serve d (fatByte f k off) = (some (tableByte f d off), k') ∧ k'.Coherent d := by
  have marked := tabled _ inside
  unfold fatByte tableByte
  dsimp only
  split
  · rw [serve_bind, serve_read, Nat.mod_mod]
    exact ⟨_, rfl, fun _ => rfl⟩
  · rename_i same
    rw [not_not] at same
    refine ⟨k, ?_, coherent⟩
    rw [same, coherent (same ▸ marked)]
    rfl

theorem serve_fatBytes (tabled : f.Tabled) (inside : (off + n - 1) / 512 < f.clusters)
    (coherent : k.Coherent d) :
    ∃ k' : Cache, serve d (fatBytes f n k off) = (some (tableBytes f d n off), k') ∧ k'.Coherent d := by
  induction n generalizing k off with
  | zero => exact ⟨k, rfl, coherent⟩
  | succ n ih =>
    obtain ⟨k₁, first, coherent₁⟩ := serve_fatByte tabled (show off / 512 < f.clusters by omega) coherent
    rw [fatBytes, serve_bind, first]
    dsimp only
    rw [serve_bind]
    cases n with
    | zero => exact ⟨k₁, rfl, coherent₁⟩
    | succ n =>
      obtain ⟨k₂, rest, coherent₂⟩ := ih (show (off + 1 + (n + 1) - 1) / 512 < f.clusters by omega) coherent₁
      rw [rest]
      exact ⟨k₂, rfl, coherent₂⟩

theorem serve_fatNext (tabled : f.Tabled) (coherent : k.Coherent d) (c : Nat) :
    ∃ k' : Cache, serve d (fatNext f k c) = (nextCluster f d c, k') ∧ k'.Coherent d := by
  unfold fatNext nextCluster
  split
  · exact ⟨k, rfl, coherent⟩
  · rename_i there
    obtain ⟨-, inside⟩ := entryAt_inside (Bool.eq_false_iff.mpr there)
    obtain ⟨k', bytes, coherent'⟩ := serve_fatBytes (d := d) tabled inside coherent
    rw [serve_bind, bytes]
    exact ⟨k', rfl, coherent'⟩

/-! ### Chains -/

/-- The cluster behind so many others. -/
def walk (f : FatRo) (d : Sectors) (first : Nat) : Nat → Nat
  | 0 => first
  | j + 1 => nextCluster f d (walk f d first j)

/-- The byte at a place of the clusters of a chain, one behind the other. -/
def chainByte (f : FatRo) (d : Sectors) (first p : Nat) : UInt8 :=
  (d ((clusterLba f (walk f d first (p / f.csize)) + p % f.csize / 512) % 2 ^ 32)).1.getD
    (p % f.csize % 512) 0

/-- The chain has a cluster of the volume for every byte of the file. -/
def LongEnough (f : FatRo) (d : Sectors) (e : FatRoEntry) : Prop :=
  ∀ j, j * f.csize < e.size → f.beyond (walk f d e.firstCluster j) = false

/-- A cluster of a mounted volume has 2^0 to 2^7 sectors. -/
def FatRo.PowerOfTwo (f : FatRo) : Prop := ∃ b ≤ 7, f.spc = 2 ^ b

theorem csize_dvd (h : f.PowerOfTwo) : f.csize ∣ 2 ^ 32 := by
  obtain ⟨b, le, spc⟩ := h
  refine ⟨2 ^ (23 - b), ?_⟩
  rw [FatRo.csize, spc, show (512 : Nat) = 2 ^ 9 from rfl, ← pow_add, ← pow_add]
  congr 1
  omega

/-- A walk to an offset in front of the last cluster below 4 GiB: it stops there or on the way. -/
theorem serve_seek (budget first : Nat) (tabled : f.Tabled) (coherent : k.Coherent d)
    (near : (off / f.csize + 1) * f.csize < 2 ^ 32) (behind : j ≤ off / f.csize) :
    ∃ (r : Option (Nat × Nat)) (k' : Cache),
      serve d (seek f off budget (walk f d first j) (j * f.csize) k) = (r, k') ∧ k'.Coherent d ∧
      (r = none ∨
        r = some (walk f d first (off / f.csize), off / f.csize * f.csize)) ∧
      ((∀ i ≤ off / f.csize, f.beyond (walk f d first i) = false) →
        (r ≠ none ↔ off / f.csize ≤ j + budget)) := by
  have pos := csize_pos f
  have below : off / f.csize * f.csize ≤ off := Nat.div_mul_le_self _ _
  have above : off < off / f.csize * f.csize + f.csize := Nat.lt_div_mul_add pos
  rw [Nat.add_mul, Nat.one_mul] at near
  induction budget generalizing j k with
  | zero =>
    have here : j * f.csize ≤ off / f.csize * f.csize := Nat.mul_le_mul_right _ behind
    rw [seek, Nat.mod_eq_of_lt (by omega)]
    split
    · rename_i more
      obtain ⟨k', next, coherent'⟩ := serve_fatNext tabled coherent (walk f d first j)
      rw [serve_bind, next]
      have less : j < off / f.csize := by
        rw [← Nat.succ_mul] at more
        exact (Nat.le_div_iff_mul_le pos).mpr more
      dsimp only
      split
      · exact ⟨_, k', rfl, coherent', .inl rfl, fun _ => iff_of_false (fun no => no rfl) (by omega)⟩
      · exact ⟨_, k', rfl, coherent', .inl rfl, fun _ => iff_of_false (fun no => no rfl) (by omega)⟩
    · rename_i there
      have same : j = off / f.csize := by
        refine Nat.le_antisymm behind ?_
        rw [← Nat.succ_mul] at there
        have := (Nat.div_lt_iff_lt_mul pos).mpr (Nat.not_le.mp there)
        omega
      refine ⟨_, k, rfl, coherent, .inr (by rw [same]), fun _ => ?_⟩
      exact iff_of_true (Option.some_ne_none _) (by omega)
  | succ budget ih =>
    have here : j * f.csize ≤ off / f.csize * f.csize := Nat.mul_le_mul_right _ behind
    rw [seek, Nat.mod_eq_of_lt (by omega)]
    split
    · rename_i more
      obtain ⟨k', next, coherent'⟩ := serve_fatNext tabled coherent (walk f d first j)
      rw [serve_bind, next]
      have less : j < off / f.csize := by
        rw [← Nat.succ_mul] at more
        exact (Nat.le_div_iff_mul_le pos).mpr more
      dsimp only
      split
      · rename_i out
        refine ⟨_, k', rfl, coherent', .inl rfl, fun valid => ?_⟩
        have two := (beyond_eq_false (valid (j + 1) less)).1
        exact absurd out (Nat.not_lt.mpr two)
      · obtain ⟨r, k'', ran, coherent'', which, valid⟩ := ih coherent' (j := j + 1) less
        rw [← Nat.succ_mul]
        refine ⟨r, k'', ran, coherent'', which, fun all => ?_⟩
        rw [valid all]
        omega
    · rename_i there
      have same : j = off / f.csize := by
        refine Nat.le_antisymm behind ?_
        rw [← Nat.succ_mul] at there
        have := (Nat.div_lt_iff_lt_mul pos).mpr (Nat.not_le.mp there)
        omega
      refine ⟨_, k, rfl, coherent, .inr (by rw [same]), fun _ => ?_⟩
      exact iff_of_true (Option.some_ne_none _) (by omega)

/-- In the last cluster below 4 GiB the walk never arrives. -/
theorem serve_seek_last (budget c : Nat) (tabled : f.Tabled) (coherent : k.Coherent d) (power : f.PowerOfTwo)
    (last : 2 ^ 32 ≤ (off / f.csize + 1) * f.csize) {at_ : Nat} (aligned : f.csize ∣ at_) :
    ∃ k' : Cache, serve d (seek f off budget c at_ k) = (none, k') ∧ k'.Coherent d := by
  have pos := csize_pos f
  have divides := csize_dvd power
  have below : off / f.csize * f.csize ≤ off := Nat.div_mul_le_self _ _
  rw [Nat.add_mul, Nat.one_mul] at last
  have next_ (at_ : Nat) (aligned : f.csize ∣ at_) : f.csize ∣ (at_ + f.csize) % 2 ^ 32 :=
    (Nat.dvd_mod_iff divides).mpr (Nat.dvd_add aligned (Nat.dvd_refl _))
  have on (at_ : Nat) (aligned : f.csize ∣ at_) : (at_ + f.csize) % 2 ^ 32 ≤ off := by
    obtain ⟨q, hq⟩ := next_ at_ aligned
    obtain ⟨w, hw⟩ := divides
    have lt : (at_ + f.csize) % 2 ^ 32 < 2 ^ 32 := Nat.mod_lt _ (by decide)
    rw [hq, hw] at lt
    have fewer := Nat.lt_of_mul_lt_mul_left lt
    have room : f.csize * (q + 1) ≤ f.csize * w := Nat.mul_le_mul_left _ fewer
    rw [Nat.mul_add, Nat.mul_one, ← hq, ← hw] at room
    omega
  induction budget generalizing c at_ k with
  | zero =>
    obtain ⟨k', next, coherent'⟩ := serve_fatNext tabled coherent c
    rw [seek, if_pos (on at_ aligned), serve_bind, next]
    dsimp only
    split
    · exact ⟨k', rfl, coherent'⟩
    · exact ⟨k', rfl, coherent'⟩
  | succ budget ih =>
    obtain ⟨k', next, coherent'⟩ := serve_fatNext tabled coherent c
    rw [seek, if_pos (on at_ aligned), serve_bind, next]
    dsimp only
    split
    · exact ⟨k', rfl, coherent'⟩
    · exact ih _ coherent' (next_ at_ aligned)

/-! ### Copying -/

/-- The cursor at the cluster of a place of a chain. -/
def seat (f : FatRo) (d : Sectors) (first p : Nat) : FatRoCursor :=
  ⟨first, walk f d first (p / f.csize), p / f.csize * f.csize⟩

theorem same_cluster {p t : Nat} (inside : p % f.csize + t < f.csize) :
    (p + t) / f.csize = p / f.csize ∧ (p + t) % f.csize = p % f.csize + t := by
  refine (Nat.div_mod_unique (csize_pos f)).mpr ⟨?_, inside⟩
  have parts := Nat.mod_add_div p f.csize
  omega

theorem seat_same {first p t : Nat} (inside : p % f.csize + t < f.csize) :
    seat f d first (p + t) = seat f d first p := by
  rw [seat, (same_cluster inside).1, seat]

theorem seat_next {first p t : Nat} (full : p % f.csize + t = f.csize) :
    seat f d first (p + t) = ⟨first, nextCluster f d (seat f d first p).cluster, (seat f d first p).at_ + f.csize⟩ := by
  have whole : p + t = (p / f.csize + 1) * f.csize := by
    have parts := Nat.div_add_mod' p f.csize
    rw [Nat.add_mul, Nat.one_mul]
    omega
  rw [seat, whole, Nat.mul_div_cancel _ (csize_pos f)]
  rw [seat, Nat.add_mul, Nat.one_mul]
  rfl

/-- The sector that a place of a chain is in. -/
def sectorAt (f : FatRo) (d : Sectors) (first p : Nat) : Sector :=
  d ((clusterLba f (seat f d first p).cluster + p % f.csize / 512) % 2 ^ 32)

theorem sector_gives {first p t : Nat} (inside : p % f.csize % 512 + t < 512) :
    chainByte f d first (p + t) = (sectorAt f d first p).1.getD (p % f.csize % 512 + t) 0 := by
  have below : p % f.csize < f.csize := Nat.mod_lt _ (csize_pos f)
  have size : f.csize = f.spc * 512 := rfl
  have within : p % f.csize + t < f.csize := by omega
  obtain ⟨cluster, place⟩ := same_cluster within
  have sector : (p % f.csize + t) / 512 = p % f.csize / 512 := by omega
  have byte : (p % f.csize + t) % 512 = p % f.csize % 512 + t := by omega
  rw [chainByte, cluster, place, sector, byte, sectorAt, seat]

/-- A copy from a place of the chain up to `r.done`, with the cursor where it ends. -/
structure CopiedTo (f : FatRo) (d : Sectors) (first off done : Nat) (buf : Nat → UInt8)
    (cursor : Option FatRoCursor) (r : Copied) : Prop where
  onward : done ≤ r.done
  bytes : ∀ i, r.buf i = if done ≤ i ∧ i < r.done then chainByte f d first (off + i) else buf i
  seated : r.cursor = cursor.map fun _ => seat f d first (off + r.done)
  coherent : r.cache.Coherent d

section Copy

variable {first len done : Nat} {buf : Nat → UInt8} {cursor : Option FatRoCursor}

theorem store_sector (inside : (off + done) % f.csize % 512 + n ≤ 512) (i : Nat) :
    store buf done (((sectorAt f d first (off + done)).1.drop ((off + done) % f.csize % 512)).take n) i =
      if done ≤ i ∧ i < done + n then chainByte f d first (off + i) else buf i := by
  have length := (sectorAt f d first (off + done)).2
  split
  · rename_i within
    obtain ⟨t, rfl⟩ := Nat.exists_eq_add_of_le within.1
    rw [store_inside (by rw [List.length_take, List.length_drop, length]; omega), List.getElem_take,
      List.getElem_drop, ← Nat.add_assoc, sector_gives (by omega), List.getD_eq_getElem _ _ (by omega)]
  · rename_i outside
    refine store_outside ?_
    rw [List.length_take, List.length_drop, length]
    omega

theorem CopiedTo.behind_sector {r : Copied} (inside : (off + done) % f.csize % 512 + n ≤ 512)
    (later : CopiedTo f d first off (done + n)
      (store buf done (((sectorAt f d first (off + done)).1.drop ((off + done) % f.csize % 512)).take n))
      cursor r) : CopiedTo f d first off done buf cursor r := by
  have onward := later.onward
  refine ⟨by omega, fun i => ?_, later.seated, later.coherent⟩
  rw [later.bytes, store_sector inside]
  split_ifs
  all_goals first | rfl | omega

theorem copiedTo_here (coherent : k.Coherent d) : CopiedTo f d first off done buf cursor
    ⟨done, buf, cursor.map fun _ => seat f d first (off + done), k⟩ :=
  ⟨Nat.le_refl _, fun _ => (if_neg fun no => absurd no.2 (Nat.not_lt.mpr no.1)).symm, rfl, coherent⟩

/-- The copy follows the chain from `off` on; it stops early where the chain does only. -/
theorem serve_copyFrom (off first len fuel done : Nat) (buf : Nat → UInt8) (cursor : Option FatRoCursor)
    (tabled : f.Tabled) (coherent : k.Coherent d)
    (small : off + len < 2 ^ 32) (part : done ≤ len) (enough : len ≤ done + fuel) :
    ∃ r : Copied, serve d (copyFrom f off len fuel done (seat f d first (off + done)).cluster
        (seat f d first (off + done)).at_ buf (cursor.map fun _ => seat f d first (off + done)) k) = r ∧
      CopiedTo f d first off done buf cursor r ∧
      ((∀ j, j * f.csize < off + len → f.beyond (walk f d first j) = false) → r.done = len) := by
  induction fuel generalizing done buf k with
  | zero => exact ⟨_, rfl, copiedTo_here coherent, fun _ => show done = len by omega⟩
  | succ fuel ih =>
    have parts := Nat.div_add_mod' (off + done) f.csize
    have below : (off + done) % f.csize < f.csize := Nat.mod_lt _ (csize_pos f)
    have size : f.csize = f.spc * 512 := rfl
    rw [copyFrom_succ]
    split
    · rename_i ends
      refine ⟨_, rfl, copiedTo_here coherent, fun valid => ?_⟩
      rcases ends with all | out
      · exact Nat.le_antisymm part all
      · by_contra left
        have left : done ≠ len := left
        have there := valid ((off + done) / f.csize) (by omega)
        exact absurd out (Bool.eq_false_iff.mp there)
    · rename_i more
      obtain ⟨left, there⟩ := not_or.mp more
      have place : sub32 (off + done) (seat f d first (off + done)).at_ = (off + done) % f.csize := by
        have at_ : (seat f d first (off + done)).at_ = (off + done) / f.csize * f.csize := rfl
        rw [at_, sub32_eq (by omega) (by omega)]
        omega
      rw [place, serve_bind, serve_read]
      dsimp only
      generalize count : min (512 - (off + done) % f.csize % 512) (len - done) = n
      have inside : (off + done) % f.csize % 512 + n ≤ 512 := by omega
      have upTo : (off + done) % f.csize + n ≤ f.csize := by omega
      split
      · rename_i full
        obtain ⟨k', next, coherent'⟩ := serve_fatNext tabled coherent (seat f d first (off + done)).cluster
        have ahead : seat f d first (off + done + n) = _ := seat_next (Nat.le_antisymm upTo full)
        have exact_ : ((seat f d first (off + done)).at_ + f.csize) % 2 ^ 32 =
            (seat f d first (off + done)).at_ + f.csize := by
          have at_ : (seat f d first (off + done)).at_ = (off + done) / f.csize * f.csize := rfl
          refine Nat.mod_eq_of_lt ?_
          omega
        obtain ⟨r, ran, copied, valid⟩ := ih (done + n) _ coherent' (by omega) (by omega)
        refine ⟨r, ?_, copied.behind_sector inside, valid⟩
        rw [serve_bind, next]
        dsimp only
        rw [exact_, ← ran, ← Nat.add_assoc, ahead, Option.map_map]
        rfl
      · rename_i within
        have same : seat f d first (off + done + n) = _ := seat_same (Nat.lt_of_not_le within)
        obtain ⟨r, ran, copied, valid⟩ := ih (done + n) _ coherent (by omega) (by omega)
        refine ⟨r, ?_, copied.behind_sector inside, valid⟩
        rw [← ran, ← Nat.add_assoc, same]
        rfl

end Copy

/-! ### The cache -/

section Coherent

variable {σ : Type} {fn : RawFn σ}

theorem serve_fatByte_coherent (coherent : k.Coherent d) : (serve d (fatByte f k off)).2.Coherent d := by
  unfold fatByte
  dsimp only
  split
  · exact fun _ => congrArg d (Nat.mod_mod _ _)
  · exact coherent

theorem serve_fatBytes_coherent (coherent : k.Coherent d) : (serve d (fatBytes f n k off)).2.Coherent d := by
  induction n generalizing k off with
  | zero => exact coherent
  | succ n ih =>
    have first : (serve d (fatByte f k off)).2.Coherent d := serve_fatByte_coherent coherent
    rw [fatBytes, serve_bind]
    split
    · exact first
    · exact serve_bind ▸ ih first

theorem serve_fatNext_coherent (coherent : k.Coherent d) : (serve d (fatNext f k c)).2.Coherent d := by
  unfold fatNext
  split
  · exact coherent
  · exact serve_bind ▸ serve_fatBytes_coherent coherent

theorem serve_walkChain_coherent {l : LongName} {s : σ} (coherent : k.Coherent d) :
    (serve d (walkChain fn f budget c l s k)).2.Coherent d := by
  induction budget generalizing c l s k with
  | zero =>
    rw [walkChain]
    split
    · exact coherent
    · rw [serve_bind]
      split
      · exact coherent
      · split
        · exact coherent
        · exact coherent
  | succ budget ih =>
    rw [walkChain]
    split
    · exact coherent
    · rw [serve_bind]
      split
      · exact coherent
      · split
        · exact coherent
        · dsimp only
          rw [serve_bind]
          exact ih (serve_fatNext_coherent coherent)

theorem serve_dirRaw_coherent {start : Nat} {fixedRoot : Bool} {s : σ} (coherent : k.Coherent d) :
    (serve d (dirRaw fn f k start fixedRoot s)).2.Coherent d := by
  unfold dirRaw
  split
  · exact serve_bind ▸ coherent
  · exact serve_walkChain_coherent coherent

theorem serve_resolve_coherent {path : List UInt8} (coherent : k.Coherent d) :
    (serve d (resolve f k path)).2.Coherent d := by
  unfold resolve
  generalize rootEntry f = out
  induction components path generalizing out k with
  | nil => exact coherent
  | cons comp comps ih =>
    have found : (serve d (dirOf (findCb comp) f k out none)).2.Coherent d := serve_dirRaw_coherent coherent
    rw [resolveFrom]
    split
    · exact coherent
    · rw [serve_bind]
      split
      · exact ih found _
      · exact found

theorem serve_fatroList_coherent {path : List UInt8} (coherent : k.Coherent d) :
    (serve d (fatroList f k path)).2.Coherent d := by
  have found : (serve d (resolve f k path)).2.Coherent d := serve_resolve_coherent coherent
  unfold fatroList
  rw [serve_bind]
  split
  · exact found
  · split
    · exact found
    · exact serve_dirRaw_coherent found

end Coherent

/-! ### Mounting -/

theorem powerOfTwo_of_bits : ∀ spc : UInt8, spc ≠ 0 → spc &&& (spc - 1) = 0 → spc ≤ 128 →
    ∃ b ≤ 7, spc.toNat = 2 ^ b := by
  decide +kernel

theorem geometry_powerOfTwo {base : Nat} {b : List UInt8} (found : geometry base b = some f) :
    f.PowerOfTwo := by
  unfold geometry at found
  extract_lets spc rootEntries total fatSectors firstFat firstRoot firstData clusters kind rootCluster at found
  split at found
  · cases found
  · rename_i good
    simp only [looksLikeBpb, Bool.or_eq_true, Bool.not_eq_true', decide_eq_true_eq, not_or,
      Bool.not_eq_false, Bool.and_eq_true] at good
    split at found
    · split at found
      · cases found
      · obtain rfl := Option.some.inj found
        obtain ⟨⟨⟨⟨⟨-, bpb⟩, -⟩, -⟩, -⟩, -⟩ := good
        obtain ⟨⟨⟨⟨⟨⟨-, nonzero⟩, bits⟩, small⟩, -⟩, -⟩, -⟩ := bpb
        exact powerOfTwo_of_bits _ nonzero bits small
    · cases found

/-- What a mount gives: clusters of a power of two, and a cache that is the card's. -/
def Mounted (d : Sectors) (r : Option (FatRo × Cache)) : Prop :=
  ∀ f k, r = some (f, k) → f.PowerOfTwo ∧ k.Coherent d

theorem empty_coherent : Cache.empty.Coherent d := fun no => absurd rfl no

theorem serve_mountAt (base : Nat) : Mounted d (serve d (mountAt base)) := by
  rintro f k ran
  unfold mountAt at ran
  rw [serve_bind, serve_read] at ran
  split at ran
  · cases ran
  · rename_i g found
    obtain ⟨b, -, found⟩ := Option.bind_eq_some_iff.mp found
    rw [serve_bind, serve_pure] at ran
    obtain same := Option.some.inj ran
    unfold findRootLabel at same
    rw [serve_bind] at same
    have coherent : (serve d (dirRaw labelCb g .empty g.rootCluster (g.kind ≠ .fat32) none)).2.Coherent d :=
      serve_dirRaw_coherent empty_coherent
    have power : g.PowerOfTwo := geometry_powerOfTwo found
    split at same
    · obtain ⟨rfl, rfl⟩ := Prod.mk.inj same
      exact ⟨power, coherent⟩
    · obtain ⟨rfl, rfl⟩ := Prod.mk.inj same
      exact ⟨power, coherent⟩

theorem serve_mountFirst (starts : List Nat) : Mounted d (serve d (mountFirst starts)) := by
  induction starts with
  | nil => exact fun _ _ no => by cases no
  | cons start rest ih =>
    rw [mountFirst]
    split
    · exact ih
    · rw [serve_bind]
      split
      · rename_i v ran
        exact ran ▸ serve_mountAt start
      · exact ih

theorem serve_fatroMount : Mounted d (serve d fatroMount) := by
  unfold fatroMount
  rw [serve_bind, serve_read]
  dsimp only
  split
  · exact fun _ _ no => by cases no
  · split
    · exact serve_mountAt 0
    · split
      · exact fun _ _ no => by cases no
      · exact serve_mountFirst _

/-! ### Reading -/

/-- The cursor is at a cluster of the chain that it is for. -/
def FatRoCursor.Seated (f : FatRo) (d : Sectors) (c : FatRoCursor) : Prop :=
  2 ≤ c.cluster → ∃ j, c.cluster = walk f d c.first j ∧ c.at_ = j * f.csize

theorem seat_seated (first p : Nat) : (seat f d first p).Seated f d := fun _ => ⟨_, rfl, rfl⟩

/-- The bytes of the file from `off` on, `len` of them or those that are left, are in the buffer. -/
def Copied.Slice (r : Copied) (f : FatRo) (d : Sectors) (e : FatRoEntry) (off len : Nat) (buf : Nat → UInt8) :
    Prop :=
  r.done = min len (e.size - off) ∧
    ∀ i, r.buf i = if i < r.done then chainByte f d e.firstCluster (off + i) else buf i

theorem resumed_on {e : FatRoEntry} {cursor : Option FatRoCursor} (seated : ∀ c ∈ cursor, c.Seated f d)
    (off : Nat) : ∃ j, j ≤ off / f.csize ∧ (cursor = none → j = 0) ∧
      ((cursor.filter fun c => c.first = e.firstCluster && 2 ≤ c.cluster && c.at_ ≤ off).map
        FatRoCursor.cluster).getD e.firstCluster = walk f d e.firstCluster j ∧
      ((cursor.filter fun c => c.first = e.firstCluster && 2 ≤ c.cluster && c.at_ ≤ off).map
        FatRoCursor.at_).getD 0 = j * f.csize := by
  cases resumed : cursor.filter fun c => c.first = e.firstCluster && 2 ≤ c.cluster && c.at_ ≤ off with
  | none => exact ⟨0, Nat.zero_le _, fun _ => rfl, rfl, (Nat.zero_mul _).symm⟩
  | some c =>
    obtain ⟨there, kept⟩ := Option.filter_eq_some_iff.mp resumed
    simp only [Bool.and_eq_true, decide_eq_true_eq] at kept
    obtain ⟨⟨same, two⟩, front⟩ := kept
    obtain ⟨j, cluster, at_⟩ := seated c there two
    refine ⟨j, (Nat.le_div_iff_mul_le (csize_pos f)).mpr (at_ ▸ front), ?_, same ▸ cluster, at_⟩
    rintro rfl
    cases there

/-- An offset in front of the last cluster below 4 GiB. -/
theorem near_iff (power : f.PowerOfTwo) : (off / f.csize + 1) * f.csize < 2 ^ 32 ↔ off + f.csize < 2 ^ 32 := by
  obtain ⟨w, hw⟩ := csize_dvd power
  have below : off / f.csize * f.csize ≤ off := Nat.div_mul_le_self _ _
  have above : off < off / f.csize * f.csize + f.csize := Nat.lt_div_mul_add (csize_pos f)
  constructor
  · intro near
    rw [hw, Nat.mul_comm f.csize] at near
    have fewer := Nat.lt_of_mul_lt_mul_right near
    have room : (off / f.csize + 1 + 1) * f.csize ≤ w * f.csize := Nat.mul_le_mul_right _ fewer
    rw [Nat.add_mul, Nat.add_mul, Nat.one_mul, Nat.mul_comm w, ← hw] at room
    omega
  · intro near
    rw [Nat.add_mul, Nat.one_mul]
    omega

/-- What a read does, for a cursor that is at cluster `j` of the chain or none. -/
theorem serve_fatroRead (e : FatRoEntry) (cursor : Option FatRoCursor) (off len : Nat) (buf : Nat → UInt8)
    (tabled : f.Tabled) (power : f.PowerOfTwo) (coherent : k.Coherent d)
    (seated : ∀ c ∈ cursor, c.Seated f d) :
    ∃ (r : Copied) (j : Nat), serve d (fatroRead f k e cursor off buf len) = r ∧ (cursor = none → j = 0) ∧
      r.cache.Coherent d ∧ (∀ c ∈ r.cursor, c.Seated f d) ∧
      (e.isDir = false → LongEnough f d e →
        (r.Slice f d e off len buf ↔ e.size ≤ off ∨ len = 0 ∨
          off + f.csize < 2 ^ 32 ∧ off / f.csize ≤ j + (f.clusters + 2) % 2 ^ 32)) := by
  obtain ⟨j, behind, fresh, cluster, at_⟩ := resumed_on (e := e) seated off
  have nothing (k : Cache) (empty : min len (e.size - off) = 0) :
      Copied.Slice ⟨0, buf, cursor, k⟩ f d e off len buf :=
    ⟨empty.symm, fun i => (if_neg (Nat.not_lt_zero i)).symm⟩
  have failed (k : Cache) (some_ : min len (e.size - off) ≠ 0) :
      ¬Copied.Slice ⟨0, buf, cursor, k⟩ f d e off len buf := fun slice => some_ slice.1.symm
  unfold fatroRead
  split
  · rename_i none_
    refine ⟨_, j, rfl, fresh, coherent, seated, fun file _ => iff_of_true (nothing k ?_) ?_⟩
    · rcases none_ with dir | none_
      · rw [file] at dir
        cases dir
      · omega
    · rcases none_ with dir | none_
      · rw [file] at dir
        cases dir
      · omega
  · rename_i some_
    obtain ⟨-, len_pos, before⟩ := (not_or.trans (and_congr_right fun _ => not_or)).mp some_
    have size := e.size_lt
    dsimp only
    rw [cluster, at_, serve_bind]
    by_cases near : off + f.csize < 2 ^ 32
    · obtain ⟨place, k', ran, coherent', which, found⟩ := serve_seek ((f.clusters + 2) % 2 ^ 32)
        e.firstCluster tabled coherent ((near_iff power).mpr near) behind
      rw [ran]
      rcases which with rfl | rfl
      · refine ⟨_, j, rfl, fresh, coherent', seated, fun _ long => iff_of_false (failed k' (by omega)) ?_⟩
        have valid := found fun i le => long i (Nat.lt_of_le_of_lt
          (Nat.le_trans (Nat.mul_le_mul_right _ le) (Nat.div_mul_le_self _ _)) (Nat.lt_of_not_le before))
        have far : ¬off / f.csize ≤ j + (f.clusters + 2) % 2 ^ 32 := fun no => valid.mpr no rfl
        rintro (no | no | ⟨-, no⟩)
        · exact before no
        · exact len_pos no
        · exact far no
      · obtain ⟨r, copied, done, valid⟩ := serve_copyFrom off e.firstCluster (min len (e.size - off))
          (min len (e.size - off)) 0 buf cursor tabled coherent' (by omega) (Nat.zero_le _) (by omega)
        refine ⟨r, j, copied, fresh, done.coherent, ?_, fun _ long => iff_of_true ⟨?_, ?_⟩ ?_⟩
        · rw [done.seated]
          intro c there
          obtain ⟨-, -, rfl⟩ := Option.map_eq_some_iff.mp there
          exact seat_seated _ _
        · exact valid fun i lt => long i (by omega)
        · intro i
          rw [done.bytes]
          refine ite_congr ?_ (fun _ => rfl) fun _ => rfl
          rw [and_iff_right (Nat.zero_le i)]
        · have within := (found fun i le => long i (Nat.lt_of_le_of_lt
            (Nat.le_trans (Nat.mul_le_mul_right _ le) (Nat.div_mul_le_self _ _)) (Nat.lt_of_not_le before))).mp
            (Option.some_ne_none _)
          exact .inr (.inr ⟨near, within⟩)
    · have last := Nat.le_of_not_lt fun no => near ((near_iff power).mp no)
      obtain ⟨k', ran, coherent'⟩ := serve_seek_last ((f.clusters + 2) % 2 ^ 32)
        (walk f d e.firstCluster j) tabled coherent power last (Dvd.intro_left j rfl)
      rw [ran]
      refine ⟨_, j, rfl, fresh, coherent', seated, fun _ _ => iff_of_false (failed k' (by omega)) ?_⟩
      rintro (no | no | ⟨no, -⟩)
      · exact before no
      · exact len_pos no
      · exact near no

/-- The cursors and caches that uses of a mounted volume leave. -/
inductive Left (d : Sectors) (f : FatRo) : FatRoCursor → Cache → Prop
  | mount {k : Cache} : serve d fatroMount = some (f, k) → Left d f ⟨0, 0, 0⟩ k
  | list {c : FatRoCursor} {k : Cache} (path : List UInt8) :
      Left d f c k → Left d f c (serve d (fatroList f k path)).2
  | stat {c : FatRoCursor} {k : Cache} (path : List UInt8) :
      Left d f c k → Left d f c (serve d (resolve f k path)).2
  | read {c : FatRoCursor} {k : Cache} (e : FatRoEntry) (off len : Nat) (buf : Nat → UInt8) :
      Left d f c k → Left d f ((serve d (fatroRead f k e (some c) off buf len)).cursor.getD c)
        (serve d (fatroRead f k e (some c) off buf len)).cache
  | readAlone {c : FatRoCursor} {k : Cache} (e : FatRoEntry) (off len : Nat) (buf : Nat → UInt8) :
      Left d f c k → Left d f c (serve d (fatroRead f k e none off buf len)).cache

/-- What holds of them. -/
structure Left.Good (d : Sectors) (f : FatRo) (c : FatRoCursor) (k : Cache) : Prop where
  power : f.PowerOfTwo
  coherent : k.Coherent d
  seated : c.Seated f d

theorem Left.good {c : FatRoCursor} (tabled : f.Tabled) (left : Left d f c k) : Left.Good d f c k := by
  induction left with
  | mount ran =>
    obtain ⟨power, coherent⟩ := serve_fatroMount f _ ran
    exact ⟨power, coherent, fun no => absurd no (by decide)⟩
  | list path _ ih => exact ⟨ih.power, serve_fatroList_coherent ih.coherent, ih.seated⟩
  | stat path _ ih => exact ⟨ih.power, serve_resolve_coherent ih.coherent, ih.seated⟩
  | read e off len buf _ ih =>
    obtain ⟨r, -, ran, -, coherent, seated, -⟩ := serve_fatroRead e (some _) off len buf
      tabled ih.power ih.coherent fun c there => Option.some.inj there ▸ ih.seated
    rw [ran]
    refine ⟨ih.power, coherent, ?_⟩
    cases moved : r.cursor with
    | none => exact ih.seated
    | some c => exact seated c moved
  | readAlone e off len buf _ ih =>
    obtain ⟨r, -, ran, -, coherent, -, -⟩ := serve_fatroRead e none off len buf
      tabled ih.power ih.coherent fun c (no : none = some c) => by cases no
    exact ⟨ih.power, ran ▸ coherent, ih.seated⟩

section Big

variable {f : FatRo} (kind : f.kind = .fat32) (spc : f.spc = 128) (firstFat : f.firstFat = 32)
  (clusters : f.clusters = 65544)

end Big

end RPCortex.Card
