import RPCortex.Fat12.Chain
import RPCortex.Fat12.Works

/-! Writes that fail, `fat12.cpp`.  What was taken for the new file is given back, as long as the table can be
written; a file of the name is gone by then. -/

namespace RPCortex.Fat12.Fault

open Lib Prog

/-! ### The table, when its sectors do not fail -/

/-- What does no harm to a write on the medium that was `d₀`: a sector of the directory cannot be read while
nothing is changed, or a sector behind the directory cannot be written. -/
def Spared (f : F12) (d₀ d : Disk) (r : Request) (o : Outcome) : Prop :=
  o.ok = true ∨ match r with
    | .read lba => f.firstRoot ≤ lba ∧ d = d₀
    | .write lba _ => f.firstRoot + f.rootSectors ≤ lba ∧ EndOk f d₀

/-- The callback has as many bytes as it is asked for. -/
def Complete (src : Nat → Nat → List UInt8) (size : Nat) : Prop :=
  ∀ k, k * 512 < size → (src (k * 512) (min 512 (size - k * 512))).length = min 512 (size - k * 512)

section Table

variable {f : F12} {d₀ d : Disk} {R : Disk → Request → Outcome → Prop} {c off v : Nat}
  {mask value : UInt8}
  (spared : ∀ d r o, R d r o → Spared f d₀ d r o)

include spared

theorem fatByte_ensures {Q : Option UInt8 → Disk → Prop} (table : f.firstFat + off / 512 < f.firstRoot)
    (h : Q (some (Fat12.fatByte f d off)) d) : (fatByte f off).ensures perform R Q d := by
  rw [fatByte, ensures_call_bind]
  intro o allowed
  have ok : o.ok = true := (spared _ _ _ allowed).resolve_right fun no => absurd no.1 (Nat.not_le.mpr table)
  simp only [perform, ok, if_true]
  exact h

theorem fatGet_ensures {Q : Nat → Disk → Prop} (sound : f.Sound) (hc : c < f.clusters + 2)
    (h : Q (Fat12.fatGet f d c) d) : (fatGet f c).ensures perform R Q d := by
  have last := sound.table c hc
  unfold F12.fatAt at last
  rw [fatGet, ensures_bind]
  refine fatByte_ensures spared (by omega) ?_
  dsimp only
  rw [ensures_bind]
  refine fatByte_ensures spared (by omega) ?_
  exact h

theorem fatByteSet_ensures {Q : Bool → Disk → Prop} (table : f.firstFat + off / 512 < f.firstRoot)
    (h : Q true (Fat12.fatByteSet f d off mask value)) :
    (fatByteSet f off mask value).ensures perform R Q d := by
  rw [fatByteSet, ensures_call_bind]
  intro o allowed
  have ok : o.ok = true := (spared _ _ _ allowed).resolve_right fun no => absurd no.1 (Nat.not_le.mpr table)
  simp only [perform, ok, if_true]
  rw [ensures_call_bind]
  intro o allowed
  have ok : o.ok = true := (spared _ _ _ allowed).resolve_right fun no =>
    absurd (Nat.le_trans (Nat.le_add_right _ _) no.1) (Nat.not_le.mpr table)
  simp only [perform, ok, if_true]
  exact h

theorem fatSet_ensures {Q : Bool → Disk → Prop} (sound : f.Sound) (hc : c < f.clusters + 2)
    (h : Q true (Fat12.fatSet f d c v)) : (fatSet f c v).ensures perform R Q d := by
  have last := sound.table c hc
  unfold F12.fatAt at last
  rw [Fat12.fatSet] at h
  rw [fatSet]
  split
  · rename_i odd
    rw [if_pos odd] at h
    rw [ensures_bind]
    refine fatByteSet_ensures spared (by omega) ?_
    exact fatByteSet_ensures spared (by omega) h
  · rename_i even
    rw [if_neg even] at h
    rw [ensures_bind]
    refine fatByteSet_ensures spared (by omega) ?_
    exact fatByteSet_ensures spared (by omega) h

end Table

/-! ### The clusters of a file that is written -/

/-- Each cluster names the next, and the last one ends the chain. -/
def Linked (f : F12) (d : Disk) : List Nat → Prop
  | [] => True
  | c :: cs => Fat12.fatGet f d c = cs.headD 0xFFF ∧ Linked f d cs

/-- The clusters `cs` were taken one after the other from a table `T` in which they were free, and the
directory has the slots `S`. -/
structure Built (f : F12) (T : Nat → Nat) (S : List (List UInt8)) (d : Disk) (cs : List Nat) : Prop where
  root : rootSlots f d = S
  linked : Linked f d cs
  distinct : cs.Nodup
  has : ∀ c ∈ cs, f.Has c
  was : ∀ c ∈ cs, T c = 0
  rest : ∀ e < f.clusters + 2, e ∉ cs → Fat12.fatGet f d e = T e

section Clusters

variable {f : F12} {d₀ d d' : Disk} {R : Disk → Request → Outcome → Prop} {T : Nat → Nat}
  {S : List (List UInt8)} {cs : List Nat} {c : Nat}

theorem Linked.congr (linked : Linked f d cs) (same : ∀ c ∈ cs, Fat12.fatGet f d' c = Fat12.fatGet f d c) :
    Linked f d' cs := by
  induction cs with
  | nil => trivial
  | cons c cs ih =>
    exact ⟨(same c List.mem_cons_self).trans linked.1,
      ih linked.2 fun x hx => same x (List.mem_cons_of_mem _ hx)⟩

theorem Built.congr (built : Built f T S d cs)
    (same : ∀ e < f.clusters + 2, Fat12.fatGet f d' e = Fat12.fatGet f d e)
    (root : rootSlots f d' = rootSlots f d) : Built f T S d' cs where
  root := root.trans built.root
  linked := built.linked.congr fun c hc => same c (built.has c hc).2
  distinct := built.distinct
  has := built.has
  was := built.was
  rest e he out := (same e he).trans (built.rest e he out)

theorem Linked.nonzero (linked : Linked f d cs) (has : ∀ c ∈ cs, f.Has c) (hc : c ∈ cs) :
    Fat12.fatGet f d c ≠ 0 := by
  induction cs with
  | nil => cases hc
  | cons a cs ih =>
    rcases List.mem_cons.mp hc with rfl | hc
    · rw [linked.1]
      cases cs with
      | nil => decide
      | cons b cs =>
        have two := (has b (by simp)).1
        rw [List.headD_cons]
        omega
    · exact ih linked.2 (fun x hx => has x (List.mem_cons_of_mem _ hx)) hc

theorem linked_snoc (linked : Linked f d cs)
    (front : ∀ x ∈ cs.dropLast, Fat12.fatGet f d' x = Fat12.fatGet f d x)
    (last : ∀ p, cs.getLast? = some p → Fat12.fatGet f d' p = c) (new : Fat12.fatGet f d' c = 0xFFF) :
    Linked f d' (cs ++ [c]) := by
  induction cs with
  | nil => exact ⟨new, trivial⟩
  | cons a cs ih =>
    cases cs with
    | nil => exact ⟨last a rfl, new, trivial⟩
    | cons b cs =>
      refine ⟨(front a (by simp)).trans linked.1,
        ih linked.2 (fun x hx => front x ?_) fun p hp => last p ?_⟩
      · rw [List.dropLast_cons_of_ne_nil (List.cons_ne_nil b cs)]
        exact List.mem_cons_of_mem _ hx
      · rw [List.getLast?_cons_cons]
        exact hp

/-- The disk after a cluster was taken and put behind another one. -/
def joined (f : F12) (d : Disk) (after c : Nat) : Disk :=
  if after ≠ 0 then Fat12.fatSet f (Fat12.fatSet f d c 0xFFF) after c else Fat12.fatSet f d c 0xFFF

theorem Built.snoc (sound : f.Sound) (built : Built f T S d cs) (has : f.Has c) (free : Fat12.fatGet f d c = 0) :
    Built f T S (joined f d (cs.getLastD 0) c) (cs ++ [c]) := by
  have small : c < 4096 := by
    have := has.2
    have := f.clusters_lt
    omega
  have out : c ∉ cs := fun no => built.linked.nonzero built.has no free
  have value (e : Nat) : Fat12.fatGet f (joined f d (cs.getLastD 0) c) e =
      if cs.getLast? = some e then c else if e = c then 0xFFF else Fat12.fatGet f d e := by
    unfold joined
    rw [List.getLastD_eq_getLast?]
    cases last : cs.getLast? with
    | none =>
      rw [if_neg (by simp), if_neg (by simp), fatGet_fatSet (by decide)]
    | some p =>
      have two := (built.has p (List.mem_of_getLast? last)).1
      rw [Option.getD_some, if_pos (by omega), fatGet_fatSet small, fatGet_fatSet (by decide)]
      simp only [Option.some.injEq, eq_comm]
  refine ⟨?_, ?_, ?_, ?_, ?_, ?_⟩
  · unfold joined
    split
    · rename_i some_
      have prev : cs.getLastD 0 ∈ cs := by
        cases cs with
        | nil => exact absurd rfl some_
        | cons a cs =>
          rw [List.getLastD_cons]
          exact List.getLastD_mem_cons
      rw [rootSlots_fatSet sound (built.has _ prev).2, rootSlots_fatSet sound has.2, built.root]
    · rw [rootSlots_fatSet sound has.2, built.root]
  · refine linked_snoc built.linked (fun x hx => ?_) (fun p hp => ?_) ?_
    · rw [value, if_neg, if_neg]
      · rintro rfl
        exact out (List.dropLast_subset _ hx)
      · intro last
        obtain ⟨l, hl⟩ := List.getLast?_eq_some_iff.mp last
        have distinct := built.distinct
        rw [hl, List.dropLast_concat] at hx
        rw [hl, List.nodup_append] at distinct
        exact distinct.2.2 x hx x (by simp) rfl
    · rw [value, if_pos hp]
    · rw [value, if_neg fun no => out (List.mem_of_getLast? no), if_pos rfl]
  · exact List.nodup_append.mpr ⟨built.distinct, by simp, fun a ha b hb => by
      obtain rfl := List.mem_singleton.mp hb
      rintro rfl
      exact out ha⟩
  · intro x hx
    rcases List.mem_append.mp hx with hx | hx
    · exact built.has x hx
    · exact List.mem_singleton.mp hx ▸ has
  · intro x hx
    rcases List.mem_append.mp hx with hx | hx
    · exact built.was x hx
    · rw [List.mem_singleton.mp hx, ← built.rest c has.2 out, free]
  · intro e he outside
    rw [List.mem_append, not_or, List.mem_singleton] at outside
    rw [value, if_neg fun no => outside.1 (List.mem_of_getLast? no), if_neg outside.2]
    exact built.rest e he outside.1

/-- The chain ends in one of its clusters, or is not begun. -/
theorem Built.last (built : Built f T S d cs) : cs.getLastD 0 = 0 ∨ f.Has (cs.getLastD 0) := by
  rw [List.getLastD_eq_getLast?]
  cases last : cs.getLast? with
  | none => exact .inl rfl
  | some p => exact .inr (built.has p (List.mem_of_getLast? last))

/-- The first cluster of a chain that one more is put behind. -/
theorem Built.first (built : Built f T S d cs) (e : Nat) :
    (if cs.headD 0 = 0 then e else cs.headD 0) = (cs ++ [e]).headD 0 := by
  cases cs with
  | nil => rfl
  | cons a cs =>
    have two := (built.has a List.mem_cons_self).1
    exact if_neg (by rw [List.headD_cons]; omega)

theorem Built.length_le (built : Built f T S d cs) : cs.length < chainFuel := by
  have subset : cs ⊆ List.range' 2 f.clusters := by
    intro c hc
    rw [List.mem_range'_1]
    have := built.has c hc
    unfold F12.Has at this
    omega
  have few := (built.distinct.subperm subset).length_le
  rw [List.length_range'] at few
  have := f.clusters_lt
  unfold chainFuel
  omega

theorem fatGet_write {lba : Nat} (sound : f.Sound) (hc : c < f.clusters + 2) (h : f.firstRoot ≤ lba)
    (b : List UInt8) : Fat12.fatGet f (d.write lba b) c = Fat12.fatGet f d c :=
  fatGet_congr sound hc fun _ lt => store_outside (Or.inl (lt_of_lt_of_le lt (Nat.mul_le_mul_right _ h)))

theorem rootSlots_write {lba : Nat} (sound : f.Sound) (h : f.firstData ≤ lba) (b : List UInt8) :
    rootSlots f (d.write lba b) = rootSlots f d := by
  have data := sound.data
  exact rootSlots_congr fun a _ last =>
    store_outside (Or.inl (lt_of_lt_of_le last (Nat.mul_le_mul_right _ (data.trans h))))

theorem writeCluster_ensures {src : Nat → Nat → List UInt8} {size sectors sn done : Nat} (sound : f.Sound) :
    (writeCluster f src size c sectors sn done).ensures perform R (fun r d' =>
      (∀ e < f.clusters + 2, Fat12.fatGet f d' e = Fat12.fatGet f d e) ∧
      rootSlots f d' = rootSlots f d ∧
      (Reliable R → Complete src size → ∀ k, done = min size (k * 512) →
        r = some (min size ((k + sectors) * 512)))) d := by
  induction sectors generalizing sn done d with
  | zero => exact ⟨fun _ _ => rfl, rfl, fun _ _ k at_ => by rw [Nat.add_zero, ← at_]⟩
  | succ sectors ih =>
    have data := sound.data
    rw [writeCluster]
    split
    · refine ⟨fun _ _ => rfl, rfl, fun _ _ k at_ => ?_⟩
      have full : size ≤ k * 512 := by omega
      rw [at_, min_eq_left full, min_eq_left (full.trans (Nat.mul_le_mul_right _ (Nat.le_add_right _ _)))]
    · rename_i more
      dsimp only
      split
      · rename_i short
        refine ⟨fun _ _ => rfl, rfl, fun _ complete k at_ => absurd (complete k (by omega)) ?_⟩
        have here : done = k * 512 := by omega
        rw [← here]
        exact short
      · rw [ensures_call_bind]
        intro o allowed
        simp only [perform]
        by_cases ok : o.ok = true
        · simp only [ok, if_true, Option.isSome_some]
          refine ih.mono fun r d' h => ⟨fun e he => ?_, ?_, fun reliable complete k at_ => ?_⟩
          · rw [h.1 e he, fatGet_write sound he (by omega)]
          · rw [h.2.1, rootSlots_write sound (by omega)]
          · rw [h.2.2 reliable complete (k + 1) (by omega), Nat.add_right_comm, Nat.add_assoc]
        · simp only [ok, if_false, Bool.false_eq_true, Option.isSome_none]
          exact ⟨fun e he => fatGet_write sound he (by omega) _, rootSlots_write sound (by omega) _,
            fun reliable => absurd (reliable _ _ _ allowed) ok⟩

/-- Where no cluster is free any more, each that was free is taken. -/
theorem Built.free_le (built : Built f T S d cs)
    (full : ∀ e, 2 ≤ e → e < f.clusters + 2 → Fat12.fatGet f d e ≠ 0) :
    ((List.range' 2 f.clusters).filter fun e => T e = 0).length ≤ cs.length := by
  refine (((List.nodup_range').filter _).subperm fun e he => ?_).length_le
  rw [List.mem_filter, List.mem_range'_1, decide_eq_true_iff] at he
  by_contra out
  exact full e he.1.1 (by omega) ((built.rest e (by omega) out).trans he.2)

variable (spared : ∀ d r o, R d r o → Spared f d₀ d r o)

include spared

/-- Freeing what was taken gives the table that there was, and leaves the directory. -/
theorem freeChain_ensures {fuel : Nat} (sound : f.Sound) (built : Built f T S d cs) (enough : cs.length < fuel) :
    (freeChain f fuel (cs.headD 0xFFF)).ensures perform R
      (fun _ d' => (∀ e < f.clusters + 2, Fat12.fatGet f d' e = T e) ∧ rootSlots f d' = S) d := by
  induction cs generalizing fuel d with
  | nil =>
    cases fuel with
    | zero => cases enough
    | succ fuel => exact ⟨fun e he => built.rest e he List.not_mem_nil, built.root⟩
  | cons c cs ih =>
    cases fuel with
    | zero => cases enough
    | succ fuel =>
      have has := built.has c List.mem_cons_self
      obtain ⟨out, distinct⟩ := List.nodup_cons.mp built.distinct
      rw [List.headD_cons, freeChain, if_pos has.inChain, ensures_bind]
      refine fatGet_ensures spared sound has.2 ?_
      rw [ensures_bind]
      refine fatSet_ensures spared sound has.2 ?_
      rw [if_pos rfl, built.linked.1]
      have value (e : Nat) : Fat12.fatGet f (Fat12.fatSet f d c 0) e =
          if e = c then 0 else Fat12.fatGet f d e := fatGet_fatSet (by decide)
      refine ih ⟨(rootSlots_fatSet sound has.2).trans built.root, built.linked.2.congr fun x hx => ?_, distinct,
        fun x hx => built.has x (List.mem_cons_of_mem _ hx),
        fun x hx => built.was x (List.mem_cons_of_mem _ hx), fun e he outside => ?_⟩
        (Nat.lt_of_succ_lt_succ enough)
      · rw [value, if_neg]
        rintro rfl
        exact out hx
      · rw [value]
        split
        · rename_i same
          rw [same, built.was c List.mem_cons_self]
        · rename_i other
          refine built.rest e he fun no => ?_
          exact (List.mem_cons.mp no).elim other outside

/-- A cluster is found and joined, unless none is free. -/
theorem allocFrom_ensures {Q : Option Nat → Disk → Prop} {after left : Nat} (sound : f.Sound)
    (prev : after = 0 ∨ f.Has after) (two : 2 ≤ c) (range : c + left = f.clusters + 2)
    (no : (∀ e, c ≤ e → e < f.clusters + 2 → Fat12.fatGet f d e ≠ 0) → Q none d)
    (yes : ∀ e, f.Has e → Fat12.fatGet f d e = 0 → Q (some e) (joined f d after e)) :
    (allocFrom f after left c).ensures perform R Q d := by
  induction left generalizing c with
  | zero => exact no fun e ge lt => by omega
  | succ left ih =>
    have has : f.Has c := ⟨two, by omega⟩
    rw [allocFrom, ensures_bind]
    refine fatGet_ensures spared sound has.2 ?_
    split
    · rename_i taken
      refine ih (by omega) (by omega) fun none_ => no fun e ge lt => ?_
      rcases Nat.eq_or_lt_of_le ge with rfl | gt
      · exact taken
      · exact none_ e gt lt
    · rename_i free
      rw [not_not] at free
      have found := yes c has free
      unfold joined at found
      rw [ensures_bind]
      refine fatSet_ensures spared sound has.2 ?_
      simp only [Bool.not_true, Bool.false_eq_true, if_false]
      split
      · rename_i some_
        rw [if_pos some_] at found
        rw [ensures_bind]
        refine fatSet_ensures spared sound (prev.resolve_left some_).2 ?_
        exact found
      · rename_i none_
        rw [if_neg none_] at found
        exact found

theorem writeData_ensures {src : Nat → Nat → List UInt8} {size fuel done : Nat} (sound : f.Sound)
    (built : Built f T S d cs) :
    (writeData f src size fuel (cs.headD 0) (cs.getLastD 0) done).ensures perform R (fun r d' => r = none →
      (∀ e < f.clusters + 2, Fat12.fatGet f d' e = T e) ∧ rootSlots f d' = S ∧
      (Reliable R → Complete src size → done = min size (cs.length * (f.spc * 512)) →
        ((List.range' 2 f.clusters).filter fun e => T e = 0).length * (f.spc * 512) < size)) d := by
  -- each pass takes one cluster behind those in `cs`, and a way out gives all of them back
  induction fuel generalizing cs done d with
  | zero => exact fun no => absurd no (Option.some_ne_none _)
  | succ fuel ih =>
    rw [writeData]
    split
    · exact fun no => absurd no (Option.some_ne_none _)
    · rename_i more
      rw [ensures_bind, allocCluster]
      refine allocFrom_ensures spared sound built.last le_rfl (by omega) (fun full => ?_) fun e has free => ?_
      · have room : Reliable R → Complete src size → done = min size (cs.length * (f.spc * 512)) →
            ((List.range' 2 f.clusters).filter fun e => T e = 0).length * (f.spc * 512) < size := by
          intro _ _ count
          have few := Nat.mul_le_mul_right (f.spc * 512) (built.free_le full)
          omega
        dsimp only
        cases cs with
        | nil =>
          rw [List.headD_nil, if_neg (not_not.mpr rfl)]
          exact fun _ => ⟨fun e he => built.rest e he List.not_mem_nil, built.root, room⟩
        | cons a cs =>
          have two := (built.has a List.mem_cons_self).1
          rw [List.headD_cons, if_pos (by omega), ensures_bind]
          exact (freeChain_ensures spared sound built built.length_le).mono fun _ d' clean _ =>
            ⟨clean.1, clean.2, room⟩
      · have taken := built.snoc sound has free
        have chain : (cs ++ [e]).headD 0 = (cs ++ [e]).headD 0xFFF := by
          cases cs <;> rfl
        have last : e = (cs ++ [e]).getLastD 0 := by
          rw [List.getLastD_concat]
        dsimp only
        rw [built.first e]
        refine (writeCluster_ensures sound).bind fun r d' wrote => ?_
        have built' := taken.congr wrote.1 wrote.2.1
        cases r with
        | none =>
          dsimp only
          rw [chain, ensures_bind]
          refine (freeChain_ensures spared sound built' built'.length_le).mono fun _ d' clean _ =>
            ⟨clean.1, clean.2, fun reliable complete count => ?_⟩
          rw [← Nat.mul_assoc] at count
          exact absurd (wrote.2.2 reliable complete _ count).symm (Option.some_ne_none _)
        | some done' =>
          dsimp only
          have next := @ih d' (cs ++ [e]) done' built'
          rw [← last] at next
          refine next.mono fun r d' h no =>
            ⟨(h no).1, (h no).2.1, fun reliable complete count => (h no).2.2 reliable complete ?_⟩
          rw [← Nat.mul_assoc] at count
          rw [Option.some.inj (wrote.2.2 reliable complete _ count), List.length_append, List.length_singleton,
            ← Nat.mul_assoc, Nat.succ_mul]

end Clusters

/-! ### The directory -/

section Directory

variable {f : F12} {d₀ d : Disk} {R : Disk → Request → Outcome → Prop} {name : List UInt8}
  {needed slot : Nat}

theorem freeRun_inside {start : Nat} (fin : EndOk f d) (run : freeRun f d needed = some start) :
    start + needed ≤ f.rootSectors * 16 :=
  @freeRunFrom_inside f 0 _ _ _ _ none none (le_rootSectors f) (by rw [length_rootSlots, Nat.zero_add]) fin
    (fun r no => absurd no.symm (Option.some_ne_none r))
    (fun s no => absurd no.symm (Option.some_ne_none s)) run

variable (spared : ∀ d r o, R d r o → Spared f d₀ d r o)

include spared

theorem dirWriteSlot_ensures {entry : List UInt8} (inside : EndOk f d₀ → slot < f.rootSectors * 16) :
    (dirWriteSlot f slot entry).ensures perform R (fun b d' => b = false → d' = d₀ ∧ ¬Reliable R) d := by
  rw [dirWriteSlot, ensures_call_bind]
  intro o allowed
  simp only [perform]
  by_cases ok : o.ok = true
  · simp only [ok, if_true]
    rw [ensures_call_bind]
    intro o allowed
    have ok : o.ok = true := (spared _ _ _ allowed).resolve_right fun no => by
      have front := inside no.2
      have behind := no.1
      omega
    simp only [perform, ok, if_true]
    exact fun no => absurd no (by decide)
  · simp only [ok, if_false, Bool.false_eq_true]
    exact fun _ => ⟨((spared _ _ _ allowed).resolve_left ok).2, fun reliable => ok (reliable _ _ _ allowed)⟩

theorem writeEntries_ensures {start count left i : Nat} {s : ShortName} {entry : List UInt8}
    (inside : EndOk f d₀ → start + count ≤ f.rootSectors * 16) (pos : 0 < count)
    (few : i + left < count) :
    (writeEntries f start count name s entry left i).ensures perform R
      (fun b d' => b = false → d' = d₀ ∧ ¬Reliable R) d := by
  induction left generalizing i d with
  | zero => exact dirWriteSlot_ensures spared fun fin => by have := inside fin; omega
  | succ left ih =>
    rw [writeEntries]
    refine (dirWriteSlot_ensures spared fun fin => by have := inside fin; omega).bind fun b d' h => ?_
    cases b with
    | true => exact ih (by omega)
    | false => exact h

end Directory

/-! ### The whole write -/

/-- There is room for a file of that name and size, and the callback has its bytes. -/
structure Fits (f : F12) (d : Disk) (name : List UInt8) (size : Nat) (src : Nat → Nat → List UInt8) :
    Prop where
  short : fatShortname name ≠ none
  slots : freeRun f d (fatEntriesFor name) ≠ none
  clusters : size ≤ f12FreeBytes f d
  source : Complete src size

section Whole

variable {f : F12} {d : Disk} {R : Disk → Request → Outcome → Prop} {name : List UInt8} {size mtime : Nat}
  {src : Nat → Nat → List UInt8}

theorem writeNew_ensures (sound : f.Sound) (spared : ∀ d' r o, R d' r o → Spared f d d' r o) :
    (writeNew f name size mtime src).ensures perform R (fun b d' => b = false →
      (∀ e < f.clusters + 2, Fat12.fatGet f d' e = Fat12.fatGet f d e) ∧
      (Reliable R → rootSlots f d' = rootSlots f d ∧ ¬Fits f d name size src)) d := by
  rw [writeNew]
  cases short : fatShortname name with
  | none => exact fun _ => ⟨fun _ _ => rfl, fun _ => ⟨rfl, fun fits => fits.short short⟩⟩
  | some s =>
    dsimp only
    refine roomSectors_ensures.bind fun r d₁ room => ?_
    obtain ⟨rfl, read, result⟩ := room
    rcases result with rfl | rfl
    · exact fun _ => ⟨fun _ _ => rfl, fun reliable => absurd rfl (read reliable)⟩
    · have found : freeRunFrom f (fatEntriesFor name) (rootSlots f d₁) 0 none none =
          freeRun f d₁ (fatEntriesFor name) := rfl
      rw [slotsFrom_zero, Nat.zero_mul, found]
      cases run : freeRun f d₁ (fatEntriesFor name) with
      | none => exact fun _ => ⟨fun _ _ => rfl, fun _ => ⟨rfl, fun fits => fits.slots run⟩⟩
      | some start =>
        dsimp only
        have empty : Built f (Fat12.fatGet f d₁) (rootSlots f d₁) d₁ [] :=
          ⟨rfl, trivial, List.nodup_nil, by simp, by simp, fun _ _ _ => rfl⟩
        refine (writeData_ensures spared sound empty).bind fun r d₂ wrote => ?_
        cases r with
        | none =>
          obtain ⟨table, root, count⟩ := wrote rfl
          refine fun _ => ⟨table, fun reliable => ⟨root, fun fits => ?_⟩⟩
          have more := count reliable fits.source (by simp)
          have room := fits.clusters
          rw [f12FreeBytes, Nat.mul_assoc] at room
          omega
        | some first =>
          refine (writeEntries_ensures spared (fun fin => freeRun_inside fin run) (one_le_fatEntriesFor name)
            (by have := one_le_fatEntriesFor name; omega)).mono fun b d' h no => ?_
          obtain ⟨rfl, fails⟩ := h no
          exact ⟨fun _ _ => rfl, fun reliable => absurd reliable fails⟩

/-- The volume behind the removal of a file of the name. -/
def cleared (f : F12) (d : Disk) (name : List UInt8) : Disk :=
  if (f12Find f d name).isSome then (Fat12.f12Remove f d name).2 else d

/-- The free clusters. -/
def freeClusters (f : F12) (d : Disk) : List Nat :=
  (List.range' 2 f.clusters).filter fun c => Fat12.fatGet f d c = 0

/-- A file of the name is what it was, and as many clusters are free. -/
structure Unharmed (f : F12) (name : List UInt8) (d d' : Disk) : Prop where
  file : ∀ x, f12Find f d name = some x → f12Find f d' name = some x ∧
    ∀ cur off len, (f12Read f d' x cur off len).1 = (f12Read f d x cur off len).1
  free : (freeClusters f d').length = (freeClusters f d).length

theorem Unharmed.refl (f : F12) (name : List UInt8) (d : Disk) : Unharmed f name d d :=
  ⟨fun _ here => ⟨here, fun _ _ _ => rfl⟩, rfl⟩

theorem freeClusters_congr {d' : Disk}
    (same : ∀ e < f.clusters + 2, Fat12.fatGet f d' e = Fat12.fatGet f d e) :
    freeClusters f d' = freeClusters f d := by
  refine List.filter_congr fun e he => ?_
  rw [List.mem_range'_1] at he
  rw [same e (by omega)]

/-- A write that fails does no harm where no file of the name is there and no sector fails but of the clusters,
or of the directory while nothing is changed. -/
theorem unharmed_of_spared {supply : Nat → Outcome} {n : Nat} (sound : f.Sound) (absent : f12Find f d name = none)
    (ok : (f12Write f name size mtime src).along perform supply (Spared f d) n d)
    (failed : ((f12Write f name size mtime src).run perform supply n d).1 = false) :
    Unharmed f name d ((f12Write f name size mtime src).run perform supply n d).2.2 := by
  by_cases empty : name = []
  · rw [f12Write, if_pos empty]
    exact Unharmed.refl f name d
  have nowhere : findName f d name = none := Option.map_eq_none_iff.mp absent
  have write : (f12Write f name size mtime src).ensures perform (Spared f d) (fun b d' => b = false →
      ∀ e < f.clusters + 2, Fat12.fatGet f d' e = Fat12.fatGet f d e) d := by
    rw [f12Write, if_neg empty]
    refine searchSectors_ensures.bind fun r d₁ search => ?_
    obtain ⟨rfl, -, result⟩ := search
    have new := (@writeNew_ensures f d₁ _ name size mtime src sound fun _ _ _ spared => spared).mono
      fun b d' h no => (h no).1
    rw [slotsFrom_zero, Nat.zero_mul] at result
    rcases result with rfl | rfl
    · exact new
    · have miss : (scanSlots (rootSlots f d₁) 0 noName).find? (fun x =>
          ieq x.entry.name name || ieq x.short name) = none := nowhere
      rw [miss]
      exact new
  exact ⟨fun x here => absurd (absent.symm.trans here).symm (Option.some_ne_none _),
    congrArg List.length (freeClusters_congr (write.run ok failed))⟩

end Whole

end RPCortex.Fat12.Fault
