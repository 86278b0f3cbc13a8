import RPCortex.Fat12.Harmless

/-! When writes that fail do no harm, `fat12.cpp`: on a medium whose sectors do not fail where the new file fits,
and whichever sectors fail where the write ends before it has taken a cluster. -/

namespace RPCortex.Fat12.Fault

open Lib Prog

/-! ### Writes that succeed -/

section Fitting

variable {f : F12} {d₀ d : Disk} {R : Disk → Request → Outcome → Prop} {T : Nat → Nat} {S : List (List UInt8)}
  {cs : List Nat} {name : List UInt8} {size mtime done : Nat} {src : Nat → Nat → List UInt8}

/-- The callback has the sectors in front of `done`. -/
def Given (src : Nat → Nat → List UInt8) (size done : Nat) : Prop :=
  ∀ k, k * 512 < done → (src (k * 512) (min 512 (size - k * 512))).length = min 512 (size - k * 512)

/-- A cluster that is written was given in full. -/
theorem writeCluster_given {c sectors sn k : Nat} (at_ : done = min size (k * 512)) (given : Given src size done) :
    (writeCluster f src size c sectors sn done).ensures perform R (fun r _ => ∀ done', r = some done' →
      done' = min size ((k + sectors) * 512) ∧ Given src size done') d := by
  induction sectors generalizing sn done k d with
  | zero =>
    rintro _ ⟨⟩
    exact ⟨by rw [Nat.add_zero, ← at_], given⟩
  | succ sectors ih =>
    rw [writeCluster]
    split
    · rintro _ ⟨⟩
      have full : size ≤ k * 512 := by omega
      rw [at_, min_eq_left full, min_eq_left (full.trans (Nat.mul_le_mul_right _ (Nat.le_add_right _ _)))]
      rw [at_, min_eq_left full] at given
      exact ⟨rfl, given⟩
    · rename_i more
      have here : done = k * 512 := by omega
      dsimp only
      split
      · exact fun _ no => absurd no.symm (Option.some_ne_none _)
      · rename_i long
        rw [not_not] at long
        rw [ensures_call_bind]
        intro o _
        split
        · rw [Nat.add_comm sectors, ← Nat.add_assoc]
          refine ih (by omega) fun j before => ?_
          rcases Nat.lt_or_ge (j * 512) done with front | behind
          · exact given j front
          · have last : j = k := by omega
            rw [last, ← here]
            exact long
        · exact fun _ no => absurd no.symm (Option.some_ne_none _)

theorem Built.length_le_free (built : Built f T S d cs) :
    cs.length ≤ ((List.range' 2 f.clusters).filter fun e => T e = 0).length := by
  refine (built.distinct.subperm fun e he => ?_).length_le
  have := built.has e he
  unfold F12.Has at this
  rw [List.mem_filter, List.mem_range'_1, decide_eq_true_iff]
  exact ⟨by omega, built.was e he⟩

/-- Data that is written was given in full, and there were clusters for it. -/
theorem writeData_fits {fuel : Nat} (sound : f.Sound) (spared : ∀ d r o, R d r o → Spared f d₀ d r o)
    (built : Built f T S d cs) (count : done = min size (cs.length * (f.spc * 512)))
    (given : Given src size done) (enough : size < done + fuel) :
    (writeData f src size fuel (cs.headD 0) (cs.getLastD 0) done).ensures perform R (fun r _ => r ≠ none →
      size ≤ ((List.range' 2 f.clusters).filter fun e => T e = 0).length * (f.spc * 512) ∧
        Given src size size) d := by
  -- each pass takes one cluster behind those in `cs` and fills it, or ends the data
  induction fuel generalizing cs done d with
  | zero => omega
  | succ fuel ih =>
    rw [writeData]
    split
    · rename_i all
      have few := Nat.mul_le_mul_right (f.spc * 512) built.length_le_free
      have same : done = size := by omega
      rw [same] at given
      exact fun _ => ⟨by omega, given⟩
    · rename_i more
      rw [ensures_bind, allocCluster]
      refine allocFrom_ensures spared sound built.last le_rfl (by omega) (fun full => ?_) fun e has free => ?_
      · dsimp only
        split
        · rw [ensures_bind]
          exact ensures_of_forall fun _ _ no => absurd rfl no
        · exact fun no => absurd rfl no
      · have last : e = (cs ++ [e]).getLastD 0 := by
          rw [List.getLastD_concat]
        have at_ : done = min size (cs.length * f.spc * 512) := by
          rw [count, Nat.mul_assoc]
        have pos : 0 < f.spc * 512 := Nat.mul_pos f.spc_pos (by decide)
        dsimp only
        rw [built.first e]
        refine ((writeCluster_ensures sound).and (writeCluster_given at_ given)).bind fun r d' wrote => ?_
        obtain ⟨⟨table, root, -⟩, wrote⟩ := wrote
        cases r with
        | none =>
          dsimp only
          rw [ensures_bind]
          exact ensures_of_forall fun _ _ no => absurd rfl no
        | some done' =>
          obtain ⟨count', given'⟩ := wrote done' rfl
          have next := @ih d' (cs ++ [e]) done' ((built.snoc sound has free).congr table root)
            (by rw [count', List.length_append, List.length_singleton, ← Nat.mul_assoc, Nat.succ_mul])
            given' (by rw [Nat.add_mul, Nat.mul_assoc] at count'; omega)
          rw [← last] at next
          exact next

/-- A new file that is written fits. -/
theorem writeNew_fits (sound : f.Sound) (spared : ∀ d' r o, R d' r o → Spared f d d' r o) :
    (writeNew f name size mtime src).ensures perform R (fun b _ => b = true → Fits f d name size src) d := by
  rw [writeNew]
  cases short : fatShortname name with
  | none => exact fun no => absurd no (by decide)
  | some s =>
    dsimp only
    refine roomSectors_ensures.bind fun r d₁ room => ?_
    obtain ⟨rfl, -, result⟩ := room
    rcases result with rfl | rfl
    · exact fun no => absurd no (by decide)
    · have found : freeRunFrom f (fatEntriesFor name) (rootSlots f d₁) 0 none none =
          freeRun f d₁ (fatEntriesFor name) := rfl
      rw [slotsFrom_zero, Nat.zero_mul, found]
      cases run : freeRun f d₁ (fatEntriesFor name) with
      | none => exact fun no => absurd no (by decide)
      | some start =>
        have empty : Built f (Fat12.fatGet f d₁) (rootSlots f d₁) d₁ [] :=
          ⟨rfl, trivial, List.nodup_nil, by simp, by simp, fun _ _ _ => rfl⟩
        dsimp only
        refine (writeData_fits sound spared empty (by simp) (fun k no => absurd no (Nat.not_lt_zero _))
          (by omega)).bind fun r d₂ wrote => ?_
        cases r with
        | none => exact fun no => absurd no (by decide)
        | some first =>
          obtain ⟨room, given⟩ := wrote (Option.some_ne_none _)
          refine ensures_of_forall fun _ _ _ => ⟨?_, ?_, ?_, given⟩
          · rw [short]
            exact Option.some_ne_none _
          · rw [run]
            exact Option.some_ne_none _
          · rw [f12FreeBytes, Nat.mul_assoc]
            exact room

end Fitting

/-! ### Sectors that fail from some point on -/

/-- The first `m` sectors that are asked for are read and written, and those behind them are not. -/
def failsFrom (m k : Nat) : Outcome := ⟨k < m, []⟩

section Ends

variable {f : F12} {d : Disk} {name : List UInt8} {size mtime m n done c : Nat} {src : Nat → Nat → List UInt8}

/-- A run that has ended by then does not meet the failures. -/
theorem run_failsFrom {α : Type} {p : Io α} (before : (p.run perform (fun _ => ⟨true, []⟩) n d).2.1 ≤ m) :
    p.run perform (failsFrom m) n d = p.run perform (fun _ => ⟨true, []⟩) n d :=
  run_congr fun k lt => by rw [failsFrom, decide_eq_true (lt_of_lt_of_le lt before)]

theorem failsFrom_ok (behind : m ≤ n) : (failsFrom m n).ok = false := decide_eq_false (Nat.not_lt.mpr behind)

theorem write_nil {lba : Nat} : d.write lba [] = d :=
  congrArg Disk.mk (funext fun a => store_outside (by rw [List.length_nil]; omega))

theorem fatByte_ends {off : Nat} (behind : m ≤ n) :
    (fatByte f off).run perform (failsFrom m) n d = (none, n + 1, d) := by
  rw [fatByte, run_call_bind]
  simp only [perform, failsFrom_ok behind]
  rfl

theorem fatByteSet_ends {off : Nat} {mask value : UInt8} (behind : m ≤ n) :
    (fatByteSet f off mask value).run perform (failsFrom m) n d = (false, n + 1, d) := by
  rw [fatByteSet, run_call_bind]
  simp only [perform, failsFrom_ok behind]
  rfl

theorem fatGet_ends (behind : m ≤ n) :
    (fatGet f c).run perform (failsFrom m) n d = (0xFFF, n + 1, d) := by
  rw [fatGet, run_bind, fatByte_ends behind]
  rfl

theorem fatSet_ends {v : Nat} (behind : m ≤ n) :
    (fatSet f c v).run perform (failsFrom m) n d = (false, n + 1, d) := by
  rw [fatSet]
  split
  · rw [run_bind, fatByteSet_ends behind]
    rfl
  · rw [run_bind, fatByteSet_ends behind]
    rfl

/-- A chain is not given back any more. -/
theorem freeChain_ends {fuel : Nat} (behind : m ≤ n) :
    ∃ r k, (freeChain f fuel c).run perform (failsFrom m) n d = (r, k, d) := by
  cases fuel with
  | zero => exact ⟨_, _, rfl⟩
  | succ fuel =>
    rw [freeChain]
    split
    · rw [run_bind, fatGet_ends behind]
      dsimp only
      rw [run_bind, fatSet_ends (behind.trans n.le_succ)]
      exact ⟨_, _, rfl⟩
    · exact ⟨_, _, rfl⟩

theorem writeCluster_ends {sectors sn : Nat} (behind : m ≤ n) (more : done < size) (pos : 0 < sectors) :
    ∃ k, (writeCluster f src size c sectors sn done).run perform (failsFrom m) n d = (none, k, d) ∧ m ≤ k := by
  obtain ⟨sectors, rfl⟩ := Nat.exists_eq_succ_of_ne_zero (Nat.ne_of_gt pos)
  rw [writeCluster, if_neg (Nat.not_le.mpr more)]
  dsimp only
  split
  · exact ⟨_, rfl, behind⟩
  · rw [run_call_bind]
    simp only [perform, failsFrom_ok behind]
    exact ⟨_, Prod.ext rfl (Prod.ext rfl write_nil), behind.trans n.le_succ⟩

theorem writeNew_ends (behind : m ≤ n) (pos : 0 < f.rootSectors) :
    ∃ k, (writeNew f name size mtime src).run perform (failsFrom m) n d = (false, k, d) := by
  rw [writeNew]
  split
  · exact ⟨_, rfl⟩
  · obtain ⟨sectors, all⟩ := Nat.exists_eq_succ_of_ne_zero (Nat.ne_of_gt pos)
    rw [all, run_bind, roomSectors, run_call_bind]
    simp only [perform, failsFrom_ok behind]
    exact ⟨_, rfl⟩

end Ends

/-! ### The whole write -/

section Whole

variable {f : F12} {d : Disk} {name : List UInt8} {size mtime : Nat} {src : Nat → Nat → List UInt8}
  {supply : Nat → Outcome} {n : Nat}

/-- A write that fails does no harm. -/
def Harmless (f : F12) (d : Disk) (name : List UInt8) (size mtime : Nat) (src : Nat → Nat → List UInt8)
    (supply : Nat → Outcome) : Prop :=
  ((f12Write f name size mtime src).run perform supply 0 d).1 = false →
    Unharmed f name d ((f12Write f name size mtime src).run perform supply 0 d).2.2

theorem harmless_nil : Harmless f d [] size mtime src supply := fun _ => by
  rw [f12Write, if_pos rfl]
  exact Unharmed.refl f [] d

theorem f12Find_congr {d' : Disk} (same : rootSlots f d' = rootSlots f d) : f12Find f d' name = f12Find f d name := by
  rw [f12Find, f12Find, findName, findName, dirScan, dirScan, same]

/-- On a medium whose sectors do not fail the new file is written to the volume behind the removal. -/
theorem run_f12Write_new (all : ∀ k, (supply k).ok = true) (named : name ≠ []) :
    ∃ k, (f12Write f name size mtime src).run perform supply n d =
      (writeNew f name size mtime src).run perform supply k (cleared f d name) := by
  obtain ⟨m, search⟩ := run_search (f := f) all name n d
  rw [f12Write, if_neg named, run_bind, search, cleared, f12Find]
  cases findName f d name with
  | none => exact ⟨_, rfl⟩
  | some x =>
    dsimp only
    rw [run_bind, run_f12Remove all]
    exact ⟨_, rfl⟩

/-- There the write fails exactly where the new file does not fit, and the directory is left as it is then. -/
theorem run_writeNew (sound : f.Sound) (all : ∀ k, (supply k).ok = true) :
    (((writeNew f name size mtime src).run perform supply n d).1 = true ↔ Fits f d name size src) ∧
      (((writeNew f name size mtime src).run perform supply n d).1 = false →
        rootSlots f ((writeNew f name size mtime src).run perform supply n d).2.2 = rootSlots f d) := by
  have ok : (writeNew f name size mtime src).along perform supply (fun _ _ o => o.ok = true) n d :=
    along_of_forall fun k _ _ => all k
  have spared (d' : Disk) (r : Request) (o : Outcome) (ok : o.ok = true) : Spared f d d' r o := .inl ok
  have fails := (@writeNew_ensures f d _ name size mtime src sound spared).run ok
  refine ⟨⟨(writeNew_fits sound spared).run ok, fun fits => ?_⟩, fun no => ((fails no).2 fun _ _ _ ok => ok).1⟩
  by_contra no
  exact ((fails (Bool.eq_false_iff.mpr no)).2 fun _ _ _ ok => ok).2 fits

/-- No sector fails: exactly where there is no file of the name, or the new one fits behind its removal. -/
theorem harmless_reliable_iff (sound : f.Sound) (single : f12Find f (cleared f d name) name = none)
    (all : ∀ k, (supply k).ok = true) : Harmless f d name size mtime src supply ↔
      name = [] ∨ f12Find f d name = none ∨ Fits f (cleared f d name) name size src := by
  constructor
  · intro harmless
    refine or_iff_not_imp_left.mpr fun named => ?_
    obtain ⟨k, run⟩ := @run_f12Write_new f d name size mtime src supply 0 all named
    obtain ⟨fits, root⟩ := @run_writeNew f (cleared f d name) name size mtime src supply k sound all
    rw [Harmless, run] at harmless
    cases result : ((writeNew f name size mtime src).run perform supply k (cleared f d name)).1 with
    | true => exact .inr (fits.mp result)
    | false =>
      -- the file is gone
      refine .inl (Option.eq_none_iff_forall_ne_some.mpr fun x here => ?_)
      have gone := ((harmless result).file x here).1
      rw [f12Find_congr (root result), single] at gone
      exact absurd gone.symm (Option.some_ne_none x)
  · rintro (rfl | absent | fits)
    · exact harmless_nil
    · exact unharmed_of_spared sound absent (along_of_forall fun k _ _ => .inl (all k))
    · intro failed
      by_cases named : name = []
      · rw [named]
        exact harmless_nil (named ▸ failed)
      obtain ⟨k, run⟩ := @run_f12Write_new f d name size mtime src supply 0 all named
      rw [run, ((@run_writeNew f (cleared f d name) name size mtime src supply k sound all).1).mpr fits] at failed
      cases failed

/-! ### Whichever sectors fail -/

/-- The first search, with what may fail of it. -/
theorem run_search_any (f : F12) (d : Disk) (name : List UInt8) (supply : Nat → Outcome) (n : Nat) : ∃ r k,
    (searchSectors f name f.rootSectors 0 noName).run perform supply n d = (r, k, d) ∧
      (r = none ∨ r = some (findName f d name)) := by
  have any : (searchSectors f name f.rootSectors 0 noName).along perform supply (fun _ _ _ => True) n d :=
    along_of_forall fun _ _ _ => trivial
  have search := (@searchSectors_ensures f d _ name 0 f.rootSectors noName).run any
  obtain ⟨same, -, result⟩ := search
  rw [slotsFrom_zero, Nat.zero_mul] at result
  exact ⟨_, _, Prod.ext rfl (Prod.ext rfl same), result⟩

theorem run_room_any (f : F12) (d : Disk) (needed : Nat) (supply : Nat → Outcome) (n : Nat) : ∃ r k,
    (roomSectors f needed f.rootSectors 0 none none).run perform supply n d = (r, k, d) ∧
      (r = none ∨ r = some (freeRun f d needed)) := by
  have any : (roomSectors f needed f.rootSectors 0 none none).along perform supply (fun _ _ _ => True) n d :=
    along_of_forall fun _ _ _ => trivial
  have search := (@roomSectors_ensures f d _ needed 0 f.rootSectors none none).run any
  obtain ⟨same, -, result⟩ := search
  rw [slotsFrom_zero, Nat.zero_mul] at result
  exact ⟨_, _, Prod.ext rfl (Prod.ext rfl same), result⟩

/-- Where no cluster is free none is taken, whatever cannot be read: an entry that cannot be read is not zero. -/
theorem run_allocFrom_full {after left c : Nat} (full : ∀ e, c ≤ e → e < c + left → Fat12.fatGet f d e ≠ 0) :
    ∃ k, (allocFrom f after left c).run perform supply n d = (none, k, d) := by
  induction left generalizing c n with
  | zero => exact ⟨_, rfl⟩
  | succ left ih =>
    obtain ⟨v, m, got, which, -⟩ := run_fatGet f d supply n c
    have taken : v ≠ 0 := by
      rcases which with rfl | rfl
      · exact full c le_rfl (by omega)
      · decide
    rw [allocFrom, run_bind, got]
    dsimp only
    rw [if_pos taken]
    exact ih fun e ge lt => full e (by omega) (by omega)

/-- The directory lies behind the table. -/
theorem writeEntries_table {R : Disk → Request → Outcome → Prop} {start slots left i : Nat} {s : ShortName}
    {entry : List UInt8} (sound : f.Sound) : (writeEntries f start slots name s entry left i).ensures perform R
      (fun _ d' => ∀ e < f.clusters + 2, Fat12.fatGet f d' e = Fat12.fatGet f d e) d := by
  have slot (at_ : Nat) (e : List UInt8) (d : Disk) : (dirWriteSlot f at_ e).ensures perform R
      (fun _ d' => ∀ e < f.clusters + 2, Fat12.fatGet f d' e = Fat12.fatGet f d e) d := by
    rw [dirWriteSlot, ensures_call_bind]
    intro o _
    simp only [perform]
    split
    · exact fun _ _ => rfl
    · rw [ensures_call_bind]
      intro o _ c hc
      simp only [perform]
      split
      · exact fatGet_write sound hc (Nat.le_add_right _ _) _
      · exact fatGet_write sound hc (Nat.le_add_right _ _) _
  induction left generalizing i d with
  | zero => exact slot _ _ d
  | succ left ih =>
    rw [writeEntries]
    refine (slot _ _ d).bind fun b d' same => ?_
    cases b with
    | false => exact same
    | true => exact ih.mono fun _ d'' later e he => (later e he).trans (same e he)

/-- A write of a new file ends before it has taken a cluster. -/
def Stops (f : F12) (d : Disk) (name : List UInt8) (size : Nat) : Prop :=
  fatShortname name = none ∨ freeRun f d (fatEntriesFor name) = none ∨ size = 0 ∨ freeClusters f d = []

/-- The table is left alone, then. -/
theorem run_writeNew_stops (sound : f.Sound) (stops : Stops f d name size) :
    freeClusters f ((writeNew f name size mtime src).run perform supply n d).2.2 = freeClusters f d := by
  rw [writeNew]
  cases short : fatShortname name with
  | none => rfl
  | some s =>
    obtain ⟨r, k, room, result⟩ := run_room_any f d (fatEntriesFor name) supply n
    dsimp only
    rw [run_bind, room]
    rcases result with rfl | rfl
    · rfl
    cases run : freeRun f d (fatEntriesFor name) with
    | none => rfl
    | some start =>
      have last : size = 0 ∨ freeClusters f d = [] := by
        rw [Stops, short, run] at stops
        simpa using stops
      dsimp only
      rw [run_bind, writeData]
      by_cases nothing : size ≤ 0
      · rw [if_pos nothing]
        exact freeClusters_congr ((writeEntries_table (R := fun _ _ _ => True) sound).run
          (along_of_forall fun _ _ _ => trivial))
      · have full := last.resolve_left fun no => nothing (le_of_eq no)
        rw [freeClusters, List.filter_eq_nil_iff] at full
        obtain ⟨m, none_⟩ := @run_allocFrom_full f d supply k 0 f.clusters 2 fun e ge lt =>
          by simpa using full e (List.mem_range'_1.mpr ⟨ge, by omega⟩)
        rw [if_neg nothing, run_bind, allocCluster, none_]
        rfl

theorem harmless_of_stops (sound : f.Sound) (absent : f12Find f d name = none) (stops : Stops f d name size) :
    Harmless f d name size mtime src supply := by
  intro _
  by_cases named : name = []
  · rw [f12Write, if_pos named]
    exact Unharmed.refl f name d
  refine ⟨fun x here => absurd (absent.symm.trans here).symm (Option.some_ne_none _), congrArg List.length ?_⟩
  have nowhere : findName f d name = none := Option.map_eq_none_iff.mp absent
  obtain ⟨r, k, search, result⟩ := run_search_any f d name supply 0
  rw [f12Write, if_neg named, run_bind, search]
  rw [nowhere] at result
  rcases result with rfl | rfl
  · exact run_writeNew_stops sound stops
  · exact run_writeNew_stops sound stops

/-- Where a file of the name is removed, what follows can fail. -/
theorem not_harmless_of_found (single : f12Find f (cleared f d name) name = none) (named : name ≠ [])
    (here : f12Find f d name ≠ none) : ∃ supply, ¬Harmless f d name size mtime src supply := by
  obtain ⟨x, found⟩ := Option.ne_none_iff_exists'.mp here
  have slots : 0 < f.rootSectors := by
    by_contra no
    have none_ : rootSlots f d = [] := List.length_eq_zero_iff.mp (by rw [length_rootSlots]; omega)
    rw [f12Find, findName, dirScan, none_] at found
    cases found
  obtain ⟨y, at_, rfl⟩ := Option.map_eq_some_iff.mp found
  have all (k : Nat) : ((fun _ => ⟨true, []⟩ : Nat → Outcome) k).ok = true := rfl
  obtain ⟨k, search⟩ := run_search (f := f) all name 0 d
  have removed := run_f12Remove (f := f) all name k d
  -- the sectors fail from the end of the removal on
  let m := ((f12Remove f chainFuel name).run perform (fun _ => ⟨true, []⟩) k d).2.1
  have late : k ≤ m := le_run
  refine ⟨failsFrom m, fun harmless => ?_⟩
  have search' : (searchSectors f name f.rootSectors 0 noName).run perform (failsFrom m) 0 d =
      (some (some y), k, d) := by
    rw [run_failsFrom (by rw [search]; exact late), search, at_]
  obtain ⟨j, new⟩ := @writeNew_ends f (cleared f d name) name size mtime m m src le_rfl slots
  have run : (f12Write f name size mtime src).run perform (failsFrom m) 0 d = (false, j, cleared f d name) := by
    rw [f12Write, if_neg named, run_bind, search']
    dsimp only
    rw [run_bind, run_failsFrom le_rfl, removed, ← new, cleared, found]
    rfl
  rw [Harmless, run] at harmless
  have gone := ((harmless rfl).file _ found).1
  rw [single] at gone
  exact absurd gone.symm (Option.some_ne_none _)

/-- A cluster that is taken is free no more. -/
theorem freeClusters_taken {c : Nat} (free : c ∈ freeClusters f d) :
    (freeClusters f (Fat12.fatSet f d c 0xFFF)).length < (freeClusters f d).length := by
  have rest : freeClusters f (Fat12.fatSet f d c 0xFFF) = (freeClusters f d).filter fun e => e ≠ c := by
    rw [freeClusters, freeClusters, List.filter_filter]
    refine List.filter_congr fun e _ => ?_
    rw [fatGet_fatSet (by decide)]
    by_cases this : e = c <;> simp [this]
  rw [rest, List.length_filter_lt_length_iff_exists]
  exact ⟨c, free, by simp⟩

/-- A write that goes on to take a cluster ends with it where the sectors fail from then on. -/
theorem run_f12Write_taken (named : name ≠ []) (absent : f12Find f d name = none) (goes : ¬Stops f d name size) :
    ∃ m j, ∃ c ∈ freeClusters f d, (f12Write f name size mtime src).run perform (failsFrom m) 0 d =
      (false, j, Fat12.fatSet f d c 0xFFF) := by
  rw [Stops, not_or, not_or, not_or] at goes
  obtain ⟨short, slots, some_, free⟩ := goes
  obtain ⟨s, short⟩ := Option.ne_none_iff_exists'.mp short
  obtain ⟨start, slots⟩ := Option.ne_none_iff_exists'.mp slots
  have nowhere : findName f d name = none := Option.map_eq_none_iff.mp absent
  have all (k : Nat) : ((fun _ => ⟨true, []⟩ : Nat → Outcome) k).ok = true := rfl
  obtain ⟨k, search⟩ := run_search (f := f) all name 0 d
  obtain ⟨l, room⟩ := run_room (f := f) all (fatEntriesFor name) k d
  obtain ⟨m, took⟩ := run_allocCluster (f := f) all 0 l d
  have searched : k ≤ l := by
    have := @le_run _ _ _ _ _ perform (fun _ => ⟨true, []⟩) k d
      (roomSectors f (fatEntriesFor name) f.rootSectors 0 none none)
    rwa [room] at this
  have looked : l ≤ m := by
    have := @le_run _ _ _ _ _ perform (fun _ => ⟨true, []⟩) l d (allocCluster f 0)
    rwa [took] at this
  obtain ⟨c, first⟩ : ∃ c, (List.range' 2 f.clusters).find? (fun e => Fat12.fatGet f d e = 0) = some c := by
    rw [← Option.isSome_iff_exists, List.find?_isSome]
    obtain ⟨c, mem⟩ := List.exists_mem_of_ne_nil _ free
    exact ⟨c, List.mem_filter.mp mem⟩
  -- up to there the sectors do not fail
  have search' : (searchSectors f name f.rootSectors 0 noName).run perform (failsFrom m) 0 d =
      (some none, k, d) := by
    rw [run_failsFrom (by rw [search]; exact searched.trans looked), search, nowhere]
  have room' : (roomSectors f (fatEntriesFor name) f.rootSectors 0 none none).run perform (failsFrom m) k d =
      (some (freeRun f d (fatEntriesFor name)), l, d) := by
    rw [run_failsFrom (by rw [room]; exact looked), room]
  have took' : (allocCluster f 0).run perform (failsFrom m) l d = (some c, m, Fat12.fatSet f d c 0xFFF) := by
    rw [run_failsFrom (by rw [took]), took, Fat12.allocCluster, first]
    rfl
  obtain ⟨i, wrote, behind⟩ := @writeCluster_ends f (Fat12.fatSet f d c 0xFFF) size m m 0 c src f.spc 0 le_rfl
    (Nat.pos_of_ne_zero some_) f.spc_pos
  obtain ⟨r, j, kept⟩ := @freeChain_ends f (Fat12.fatSet f d c 0xFFF) m i c chainFuel behind
  have empty := List.find?_some (p := fun e => decide (Fat12.fatGet f d e = 0)) first
  refine ⟨m, j, c, List.mem_filter.mpr ⟨List.mem_of_find?_eq_some first, empty⟩, ?_⟩
  rw [f12Write, if_neg named, run_bind, search']
  dsimp only
  rw [writeNew, short]
  dsimp only
  rw [run_bind, room', slots]
  dsimp only
  rw [run_bind, writeData, if_neg (by omega), run_bind, took']
  dsimp only
  rw [if_pos rfl, run_bind, wrote]
  dsimp only
  rw [run_bind, kept]
  rfl

/-- Where a cluster is taken, it may not be given back. -/
theorem not_harmless_of_taken (named : name ≠ []) (absent : f12Find f d name = none)
    (goes : ¬Stops f d name size) : ∃ supply, ¬Harmless f d name size mtime src supply := by
  obtain ⟨m, j, c, free, run⟩ := @run_f12Write_taken f d name size mtime src named absent goes
  refine ⟨failsFrom m, fun harmless => ?_⟩
  rw [Harmless, run] at harmless
  exact absurd (harmless rfl).free (Nat.ne_of_lt (freeClusters_taken free))

/-- Whichever sectors fail: exactly where there is no file of the name and the write ends before it has taken a
cluster. -/
theorem harmless_always_iff (sound : f.Sound) (single : f12Find f (cleared f d name) name = none) :
    (∀ supply, Harmless f d name size mtime src supply) ↔
      name = [] ∨ (f12Find f d name = none ∧ Stops f d name size) := by
  constructor
  · intro always
    refine or_iff_not_imp_left.mpr fun named => ?_
    by_contra no
    rw [not_and_or] at no
    obtain ⟨supply, harm⟩ : ∃ supply, ¬Harmless f d name size mtime src supply := by
      by_cases absent : f12Find f d name = none
      · exact not_harmless_of_taken named absent (no.resolve_left (not_not.mpr absent))
      · exact not_harmless_of_found single named absent
    exact harm (always supply)
  · rintro (rfl | ⟨absent, stops⟩) supply
    · exact harmless_nil
    · exact harmless_of_stops sound absent stops

/-- The searches of the directory find neither the name nor free slots, or meet a sector that cannot be read. -/
def Unreached (f : F12) (d : Disk) (name : List UInt8) (supply : Nat → Outcome) : Prop :=
  let search := (searchSectors f name f.rootSectors 0 noName).run perform supply 0 d
  let room := (roomSectors f (fatEntriesFor name) f.rootSectors 0 none none).run perform supply search.2.1 d
  (search.1 = none ∨ search.1 = some none) ∧ (fatShortname name = none ∨ room.1 = none ∨ room.1 = some none)

/-- Nothing is changed, then. -/
theorem harmless_of_unreached (unreached : Unreached f d name supply) :
    Harmless f d name size mtime src supply := by
  obtain ⟨missed, ends⟩ := unreached
  intro _
  have same : ((f12Write f name size mtime src).run perform supply 0 d).2.2 = d := by
    by_cases named : name = []
    · rw [f12Write, if_pos named]
      rfl
    obtain ⟨r, k, search, -⟩ := run_search_any f d name supply 0
    obtain ⟨t, m, room, -⟩ := run_room_any f d (fatEntriesFor name) supply k
    have new : ((writeNew f name size mtime src).run perform supply k d).2.2 = d := by
      rw [search, room] at ends
      rw [writeNew]
      cases short : fatShortname name with
      | none => rfl
      | some s =>
        dsimp only
        rw [run_bind, room]
        rcases ends.resolve_left (by rw [short]; exact Option.some_ne_none _) with rfl | rfl
        · rfl
        · rfl
    rw [search] at missed
    rw [f12Write, if_neg named, run_bind, search]
    rcases missed with rfl | rfl
    · exact new
    · exact new
  rw [same]
  exact Unharmed.refl f name d

/-- When `f12_write` keeps a file of the name and the free clusters although it fails.  Where the name stands for
one file at most: no sector fails, exactly if there is no such file or the new one fits behind its removal; and
whichever sectors fail, exactly if there is no such file and no cluster is taken.  For a single pattern of
failures it is enough that the searches stop in front of any change, or that there is no such file and no sector
fails but of the clusters, or of the directory while nothing is changed. -/
theorem write_harmless (sound : f.Sound) :
    (f12Find f (cleared f d name) name = none →
      (∀ supply, (∀ k, (supply k).ok = true) → (Harmless f d name size mtime src supply ↔
        name = [] ∨ f12Find f d name = none ∨ Fits f (cleared f d name) name size src)) ∧
      ((∀ supply, Harmless f d name size mtime src supply) ↔
        name = [] ∨ (f12Find f d name = none ∧ Stops f d name size))) ∧
    ∀ supply, Unreached f d name supply ∨ (f12Find f d name = none ∧
        (f12Write f name size mtime src).along perform supply (Spared f d) 0 d) →
      Harmless f d name size mtime src supply := by
  refine ⟨fun single => ⟨fun supply all => harmless_reliable_iff sound single all,
    harmless_always_iff sound single⟩, ?_⟩
  rintro supply (unreached | ⟨absent, ok⟩)
  · exact harmless_of_unreached unreached
  · exact unharmed_of_spared sound absent ok

end Whole

/-- Every cluster is taken, and the directory is empty. -/
def takenUp : Disk := ⟨fun a => if a < 1024 then 0xFF else 0⟩

/-- The file `A` of one byte in the cluster 2, and no other cluster is free. -/
def oneFile : Disk := ⟨fun a =>
  if a < 1024 then 0xFF
  else if a < 1056 then (fatDirent (0x41 :: List.replicate 10 0x20) 0x20 2 1 0 0).getD (a - 1024) 0
  else 0⟩

/-- One byte fits behind the removal of the file, the first search can fail, and a full volume stays as it is. -/
theorem write_harmless_oneFile :
    Harmless twoSectors oneFile [0x41] 1 0 (fun _ want => List.replicate want 0) (fun _ => ⟨true, []⟩) ∧
      Harmless twoSectors oneFile [0x41] 1025 0 (fun _ want => List.replicate want 0) (fun _ => ⟨false, []⟩) ∧
      ∀ supply, Harmless twoSectors takenUp [0x41] 1 0 (fun _ want => List.replicate want 0) supply :=
  ⟨(((write_harmless ⟨by decide, by decide⟩).1 (by decide +kernel)).1 _ fun _ => rfl).mpr
      (.inr (.inr ⟨by decide, by decide +kernel, by decide +kernel, fun _ _ => List.length_replicate⟩)),
    (write_harmless ⟨by decide, by decide⟩).2 _ (.inl ⟨.inl (by decide +kernel), .inr (.inl (by decide +kernel))⟩),
    ((write_harmless ⟨by decide, by decide⟩).1 (by decide +kernel)).2.mpr
      (.inr ⟨by decide +kernel, .inr (.inr (.inr (by decide +kernel)))⟩)⟩

/-- The file is removed before the new one turns out to be too large. -/
theorem not_write_harmless : ¬∀ f name size mtime src d (supply : Nat → Outcome), f.Sound →
    Harmless f d name size mtime src supply := by
  intro always
  have unharmed := always twoSectors [0x41] 1025 0 (fun _ want => List.replicate want 0) oneFile
    (fun _ => ⟨true, []⟩) ⟨by decide, by decide⟩ (by decide +kernel)
  exact absurd (unharmed.file ⟨[0x41], 1, 315532800, 2, false⟩ (by decide +kernel)).1 (by decide +kernel)

end RPCortex.Fat12.Fault
