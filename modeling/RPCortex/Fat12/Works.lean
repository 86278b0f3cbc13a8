import RPCortex.Fat12.Attempt

/-! On a medium whose sectors do not fail, removing a file, taking a cluster and the searches of the directory do
what they do on the medium without errors. -/

namespace RPCortex.Fat12.Fault

open Lib Prog

variable {f : F12} {supply : Nat → Outcome}
  (all : ∀ k, (supply k).ok = true)

include all

/-! ### Removal -/

theorem run_search (name : List UInt8) (n : Nat) (d : Disk) :
    ∃ m, (searchSectors f name f.rootSectors 0 noName).run perform supply n d =
      (some (findName f d name), m, d) := by
  have search := (@searchSectors_ensures f d (fun _ _ o => o.ok = true) name 0 f.rootSectors noName).run
    (along_of_forall (n := n) fun k _ _ => all k)
  obtain ⟨same, read, result⟩ := search
  refine ⟨_, Prod.ext (result.resolve_left (read fun _ _ _ ok => ok) |>.trans ?_) (Prod.ext rfl same)⟩
  rw [slotsFrom_zero, Nat.zero_mul]
  rfl

theorem run_freeChain_works (fuel c n : Nat) (d : Disk) :
    ∃ r m, (freeChain f fuel c).run perform supply n d = (r, m, Fat12.freeChain f fuel d c) := by
  induction fuel generalizing c n d with
  | zero => exact ⟨_, _, rfl⟩
  | succ fuel ih =>
    rw [freeChain, Fat12.freeChain]
    split
    · obtain ⟨v, m, got, -, right⟩ := run_fatGet f d supply n c
      obtain ⟨ok, m', d', set, done, reliable⟩ := run_fatSet f d supply m c 0
      obtain rfl := reliable all
      obtain rfl := done rfl
      rw [run_bind, got]
      dsimp only
      rw [run_bind, set, right all]
      exact ih _ _ _
    · exact ⟨_, _, rfl⟩

theorem run_dirWriteSlot (slot n : Nat) (entry : List UInt8) (d : Disk) :
    ∃ m, (dirWriteSlot f slot entry).run perform supply n d =
      (true, m, Fat12.dirWriteSlot f d slot entry) := by
  rw [dirWriteSlot, run_call_bind]
  simp only [perform, all, if_true]
  rw [run_call_bind]
  simp only [perform, all, if_true]
  exact ⟨_, rfl⟩

theorem run_eraseSlots (last slots n : Nat) (d : Disk) :
    ∃ r m, (eraseSlots f last slots).run perform supply n d = (r, m, Fat12.eraseSlots f last slots d) := by
  induction slots generalizing n d with
  | zero => exact ⟨_, _, rfl⟩
  | succ slot ih =>
    obtain ⟨m, wrote⟩ := run_dirWriteSlot all slot (n + 1) (0xE5 :: (slotAt f d slot).drop 1) d
    have step : (eraseSlots f last (slot + 1)).run perform supply n d =
        (if slot ≠ last ∧ (slotAt f d slot).getD 11 0 &&& 0x0F ≠ 0x0F then pure true
        else do
          let marked ← dirWriteSlot f slot (0xE5 :: (slotAt f d slot).drop 1)
          if !marked then pure false
          else if slot ≠ last ∧ (slotAt f d slot).getD 0 0 &&& 0x40 ≠ 0 then pure true
          else eraseSlots f last slot : Io Bool).run perform supply (n + 1) d := by
      rw [eraseSlots, run_call_bind]
      simp only [perform, all, if_true]
      rfl
    rw [step, Fat12.eraseSlots]
    dsimp only
    split
    · exact ⟨_, _, rfl⟩
    · rw [run_bind, wrote]
      simp only [Bool.not_true, Bool.false_eq_true, if_false]
      split
      · exact ⟨_, _, rfl⟩
      · exact ih _ _

theorem run_f12Remove (name : List UInt8) (n : Nat) (d : Disk) :
    ((f12Remove f chainFuel name).run perform supply n d).2.2 = (Fat12.f12Remove f d name).2 := by
  obtain ⟨m, search⟩ := run_search all name n d
  rw [f12Remove, run_bind, search, Fat12.f12Remove]
  dsimp only
  cases findName f d name with
  | none => rfl
  | some x =>
    obtain ⟨r, k, freed⟩ := run_freeChain_works all chainFuel x.entry.firstCluster m d
    have ended := (remove_ends f d).1 supply m x.entry.firstCluster
    rw [freed] at ended
    obtain rfl := ended
    dsimp only
    rw [run_bind, freed]
    dsimp only
    obtain ⟨r, k', erased⟩ := run_eraseSlots all x.slot (x.slot + 1) k
      (Fat12.freeChain f chainFuel d x.entry.firstCluster)
    rw [run_bind, erased]
    rfl

/-! ### Room -/

theorem run_allocFrom (after left c n : Nat) (d : Disk) : ∃ m,
    (allocFrom f after left c).run perform supply n d =
      ((List.range' c left).find? (fun e => Fat12.fatGet f d e = 0), m,
        (((List.range' c left).find? fun e => Fat12.fatGet f d e = 0).map fun e =>
          if after ≠ 0 then Fat12.fatSet f (Fat12.fatSet f d e 0xFFF) after e
          else Fat12.fatSet f d e 0xFFF).getD d) := by
  induction left generalizing c n with
  | zero => exact ⟨_, rfl⟩
  | succ left ih =>
    obtain ⟨v, m, got, -, right⟩ := run_fatGet f d supply n c
    obtain rfl := right all
    rw [allocFrom, run_bind, got, List.range'_succ, List.find?_cons]
    dsimp only
    by_cases free : Fat12.fatGet f d c = 0
    · obtain ⟨ok, m', d', set, done, reliable⟩ := run_fatSet f d supply m c 0xFFF
      obtain rfl := reliable all
      obtain rfl := done rfl
      rw [if_neg (not_not.mpr free), run_bind, set]
      simp only [free, decide_true, Bool.not_true, Bool.false_eq_true, if_false, Option.map_some,
        Option.getD_some]
      by_cases front : after ≠ 0
      · obtain ⟨ok, k, d', set', done, reliable⟩ := run_fatSet f (Fat12.fatSet f d c 0xFFF) supply m' after c
        obtain rfl := reliable all
        obtain rfl := done rfl
        rw [if_pos front, if_pos front, run_bind, set']
        exact ⟨_, rfl⟩
      · rw [if_neg front, if_neg front]
        exact ⟨_, rfl⟩
    · rw [if_pos free]
      simp only [free, decide_false]
      exact ih _ _

theorem run_allocCluster (after n : Nat) (d : Disk) : ∃ m,
    (allocCluster f after).run perform supply n d = ((Fat12.allocCluster f d after).map Prod.fst, m,
      ((Fat12.allocCluster f d after).map Prod.snd).getD d) := by
  obtain ⟨m, ran⟩ := run_allocFrom all after f.clusters 2 n d
  refine ⟨m, ?_⟩
  rw [allocCluster, ran, Fat12.allocCluster, Option.map_map, Option.map_map]
  cases (List.range' 2 f.clusters).find? fun e => Fat12.fatGet f d e = 0 <;> rfl

theorem run_room (needed n : Nat) (d : Disk) : ∃ m,
    (roomSectors f needed f.rootSectors 0 none none).run perform supply n d =
      (some (freeRun f d needed), m, d) := by
  have search := (@roomSectors_ensures f d (fun _ _ o => o.ok = true) needed 0 f.rootSectors none none).run
    (along_of_forall (n := n) fun k _ _ => all k)
  obtain ⟨same, read, result⟩ := search
  refine ⟨_, Prod.ext (result.resolve_left (read fun _ _ _ ok => ok) |>.trans ?_) (Prod.ext rfl same)⟩
  rw [slotsFrom_zero, Nat.zero_mul]
  rfl

end RPCortex.Fat12.Fault
