import RPCortex.Fat12.Directory
import RPCortex.Fat12.Used

/-! The root directory between calls: a long name goes on to its entry, and nothing stands in front of
its first slot that a scan would take for a part of it.  Every call keeps that, where no name takes more
than 64 slots. -/

namespace RPCortex.Fat12

open Lib

variable {f : F12} {d d' : Disk} {slot : Nat} {l : LongName} {a b e : List UInt8}
  {front mid old back slots : List (List UInt8)}

/-- A slot of a long name. -/
def IsLfn (e : List UInt8) : Prop := e.getD 11 0 &&& 0x0F = 0x0F

/-- A slot of a long name that is in use. -/
def Lfn (e : List UInt8) : Prop := Live e ∧ IsLfn e

/-- What may stand behind a slot. -/
structure Follows (a b : List UInt8) : Prop where
  ended : a.getD 0 0 = 0 → b.getD 0 0 = 0
  goesOn : Lfn a → Live b
  begins : Lfn b → b.getD 0 0 &&& 0x40 ≠ 0 → ¬Lfn a

/-- The directory is in order; behind its last slot it ends. -/
structure Tidy (f : F12) (d : Disk) : Prop where
  chained : Chained f d
  order : (rootSlots f d ++ [blankSlot]).IsChain Follows
  starts : ∀ e ∈ rootSlots f d, Live e → ¬IsLfn e → f.Starts (rd16 e 26)

/-- A slot that is marked as deleted. -/
def mark (e : List UInt8) : List UInt8 := 0xE5 :: e.drop 1

@[simp] theorem getD_mark (e : List UInt8) : (mark e).getD 0 0 = 0xE5 := rfl

theorem not_live_mark (e : List UInt8) : ¬Live (mark e) := fun no => no.2 rfl

theorem Follows.of_not (used : a.getD 0 0 ≠ 0) (h : ¬Lfn a) : Follows a b :=
  ⟨fun no => absurd no used, fun no => absurd no h, fun _ _ => h⟩

theorem follows_mark : Follows (mark a) b :=
  .of_not (by rw [getD_mark]; decide) fun no => not_live_mark a no.1

/-! ### Scanning -/

/-- A scan over slots in front of the end gives what they hold and goes on behind them. -/
theorem scanSlots_front (used : ∀ e ∈ front, e.getD 0 0 ≠ 0) (slot : Nat) (l : LongName) :
    ∃ l', (∀ rest, scanSlots (front ++ rest) slot l =
        scanSlots front slot l ++ scanSlots rest (slot + front.length) l') ∧
      (front = [] → l' = l) ∧ ∀ e, front.getLast? = some e → ¬Lfn e → l'.ok = false := by
  induction front generalizing slot l with
  | nil => exact ⟨l, fun _ => rfl, fun _ => rfl, fun e no => absurd no.symm (Option.some_ne_none e)⟩
  | cons e front ih =>
    have zero := used e List.mem_cons_self
    -- the slot is passed with or without an entry, and in a state that is good behind a long name only
    obtain ⟨l₁, found, step, good⟩ : ∃ l₁ found, (∀ rest, scanSlots (e :: rest) slot l =
        found ++ scanSlots rest (slot + 1) l₁) ∧ (¬Lfn e → l₁.ok = false) := by
      by_cases erased : e.getD 0 0 = 0xE5
      · refine ⟨noName, [], fun rest => ?_, fun _ => rfl⟩
        rw [scanSlots]
        simp only [if_neg zero, if_pos erased, List.nil_append]
      by_cases long : e.getD 11 0 &&& 0x0F = 0x0F
      · let l₀ := if e.getD 0 0 &&& 0x40 ≠ 0 then ⟨List.replicate maxName 0, true⟩ else l
        refine ⟨if l₀.ok then lfnGather e l₀ else l₀, [], fun rest => ?_,
          fun no => absurd ⟨⟨zero, erased⟩, long⟩ no⟩
        rw [scanSlots]
        simp only [if_neg zero, if_neg erased, if_pos long, List.nil_append]
        rfl
      by_cases label : e.getD 11 0 &&& 0x08 ≠ 0
      · refine ⟨{ l with ok := false }, [], fun rest => ?_, fun _ => rfl⟩
        rw [scanSlots]
        simp only [if_neg zero, if_neg erased, if_neg long, if_pos label, List.nil_append]
      · refine ⟨noName, [⟨entryOf e l, shortName e, slot⟩], fun rest => ?_, fun _ => rfl⟩
        rw [scanSlots]
        simp only [if_neg zero, if_neg erased, if_neg long, if_neg label, List.cons_append,
          List.nil_append]
    rcases ih (fun e he => used e (List.mem_cons_of_mem _ he)) (slot + 1) l₁ with ⟨l', scan, none, last⟩
    refine ⟨l', fun rest => ?_, fun no => absurd no (List.cons_ne_nil _ _), fun z hz long => ?_⟩
    · rw [List.cons_append, step, step, scan, List.append_assoc, List.length_cons, Nat.add_assoc,
        Nat.add_comm 1]
    · cases front with
      | nil =>
        rw [List.getLast?_singleton] at hz
        cases hz
        rw [none rfl]
        exact good long
      | cons y front =>
        rw [List.getLast?_cons_cons] at hz
        exact last z hz long

theorem scanSlots_long (long : ∀ e ∈ mid, IsLfn e) (slot : Nat) (l : LongName) :
    scanSlots mid slot l = [] := by
  induction mid generalizing slot l with
  | nil => rfl
  | cons e mid ih =>
    have rest := ih fun e he => long e (List.mem_cons_of_mem _ he)
    have here : e.getD 11 0 &&& 0x0F = 0x0F := long e List.mem_cons_self
    rw [scanSlots]
    dsimp only
    rw [if_pos here]
    split
    · rfl
    split
    · exact rest _ _
    · exact rest _ _

theorem scanSlots_mark (mid : List (List UInt8)) (e : List UInt8) (slot : Nat) (l : LongName) :
    scanSlots (mid.map mark ++ mark e :: back) slot l = scanSlots back (slot + mid.length + 1) noName := by
  have one (e : List UInt8) (rest : List (List UInt8)) (slot : Nat) (l : LongName) :
      scanSlots (mark e :: rest) slot l = scanSlots rest (slot + 1) noName := by
    have head : (mark e).getD 0 0 = 0xE5 := rfl
    rw [scanSlots]
    dsimp only
    rw [head, if_neg (by decide), if_pos rfl]
  induction mid generalizing slot l with
  | nil => exact one _ _ _ _
  | cons m mid ih =>
    rw [List.map_cons, List.cons_append, one, ih, List.length_cons]
    congr 1
    omega

theorem mem_entriesOf (h : e ∈ entriesOf slots) : e ∈ slots ∧ Live e ∧ ¬IsLfn e := by
  induction slots with
  | nil => cases h
  | cons x slots ih =>
    rw [entriesOf] at h
    split at h
    · cases h
    rename_i zero
    split at h
    · exact ⟨List.mem_cons_of_mem _ (ih h).1, (ih h).2⟩
    rename_i live
    rcases List.mem_cons.mp h with rfl | mem
    · rcases not_or.mp live with ⟨erased, rest⟩
      exact ⟨List.mem_cons_self, ⟨zero, erased⟩, (not_or.mp rest).1⟩
    · exact ⟨List.mem_cons_of_mem _ (ih mem).1, (ih mem).2⟩

theorem Tidy.firsts (tidy : Tidy f d) : FirstsOk f d := by
  intro e he
  rcases mem_entriesOf he with ⟨mem, live, short⟩
  exact tidy.starts e mem live short

theorem Tidy.kept (tidy : Tidy f d) (h : Kept f d d') : Tidy f d' where
  chained := h.chained
  order := by
    rw [h.root]
    exact tidy.order
  starts := by
    rw [h.root]
    exact tidy.starts

/-! ### Removing -/

/-- Where the marking of slots ends: in front of a slot that is none of a long name, or with the first
slot of a name. -/
def Stops (front mid : List (List UInt8)) : Prop :=
  ∀ e, front.getLast? = some e → ¬IsLfn e ∨ ∃ m, mid.head? = some m ∧ m.getD 0 0 &&& 0x40 ≠ 0

theorem slotAt_of_root {n : Nat} (root : rootSlots f d = front ++ e :: back) (len : front.length = n) :
    slotAt f d n = e := by
  have count : n < (rootSlots f d).length := by
    rw [root, List.length_append, List.length_cons]
    omega
  have here : (rootSlots f d)[n]? = some (slotAt f d n) :=
    getElem?_rootSlots (by rwa [length_rootSlots] at count)
  rw [root, ← len, List.getElem?_append_right le_rfl, Nat.sub_self, List.getElem?_cons_zero] at here
  rw [← len]
  exact (Option.some.inj here).symm

theorem rootSlots_mark {n : Nat} (root : rootSlots f d = front ++ e :: back) (len : front.length = n) :
    rootSlots f (dirWriteSlot f d n (mark (slotAt f d n))) = front ++ mark e :: back := by
  have count : (mark (slotAt f d n)).length = 32 := by
    rw [mark, List.length_cons, List.length_drop, length_slotAt]
  rw [rootSlots_dirWriteSlot count, root, slotAt_of_root root len, ← len,
    List.set_append_right _ _ le_rfl, Nat.sub_self, List.set_cons_zero]

theorem dirWriteSlot_mark_chained (sound : f.Sound) (chained : Chained f d) (n : Nat) :
    Chained f (dirWriteSlot f d n (mark (slotAt f d n))) := by
  refine dirWriteSlot_chained sound chained ?_
  rw [mark, List.length_cons, List.length_drop, length_slotAt]

/-- The slots of the long name in front of an entry are marked. -/
theorem eraseSlots_long (sound : f.Sound) (chained : Chained f d) {n last : Nat} (few : n ≤ last)
    {front back : List (List UInt8)} (root : rootSlots f d = front ++ back) (len : front.length = n) :
    Chained f (eraseSlots f last n d) ∧ ∃ rest mid, front = rest ++ mid ∧ (∀ e ∈ mid, IsLfn e) ∧
      rootSlots f (eraseSlots f last n d) = rest ++ (mid.map mark ++ back) ∧ Stops rest mid := by
  induction n generalizing d front back with
  | zero =>
    obtain rfl := List.length_eq_zero_iff.mp len
    exact ⟨chained, [], [], rfl, fun e no => absurd no List.not_mem_nil, root,
      fun e no => absurd no.symm (Option.some_ne_none e)⟩
  | succ slot ih =>
    obtain rfl | ⟨front, s, rfl⟩ := List.eq_nil_or_concat' front
    · exact absurd len (Nat.succ_ne_zero slot).symm
    have len' : front.length = slot := by simpa using len
    have root' : rootSlots f d = front ++ s :: back := by rw [root]; simp
    have here := slotAt_of_root root' len'
    have marked := rootSlots_mark root' len'
    have chained' := dirWriteSlot_mark_chained sound chained slot
    unfold mark at marked chained'
    have notLast : slot ≠ last := by omega
    rw [eraseSlots]
    dsimp only
    by_cases long : IsLfn s
    · have attr : ¬(slot ≠ last ∧ (slotAt f d slot).getD 11 0 &&& 0x0F ≠ 0x0F) := by
        rw [here]
        exact fun no => no.2 long
      rw [if_neg attr]
      split
      · rename_i flagged
        rw [here] at flagged
        refine ⟨chained', front, [s], rfl, ?_, ?_, fun e _ => .inr ⟨s, rfl, flagged.2⟩⟩
        · intro e he
          rw [List.mem_singleton.mp he]
          exact long
        · rw [marked]
          rfl
      · rcases ih chained' (by omega) marked len' with ⟨done, rest, mid, rfl, longs, after, stops⟩
        refine ⟨done, rest, mid ++ [s], by rw [List.append_assoc], ?_, ?_, ?_⟩
        · intro e he
          rcases List.mem_append.mp he with he | he
          · exact longs e he
          · rw [List.mem_singleton.mp he]
            exact long
        · rw [after, List.map_append, List.append_assoc]
          rfl
        · intro e he
          rcases stops e he with short | ⟨m, hm, flagged⟩
          · exact .inl short
          · refine .inr ⟨m, ?_, flagged⟩
            rw [List.head?_append, hm]
            rfl
    · have attr : slot ≠ last ∧ (slotAt f d slot).getD 11 0 &&& 0x0F ≠ 0x0F := by
        rw [here]
        exact ⟨notLast, long⟩
      rw [if_pos attr]
      refine ⟨chained, front ++ [s], [], by rw [List.append_nil], fun e no => absurd no List.not_mem_nil, root,
        fun e he => .inl ?_⟩
      rw [List.getLast?_concat] at he
      cases he
      exact long

/-- The first entry that a name is found as is taken out of the directory, and nothing else. -/
theorem f12Remove_split (sound : f.Sound) (tidy : Tidy f d) {name : List UInt8} {x : Found}
    (found : findName f d name = some x) :
    Chained f (f12Remove f d name).2 ∧ ∃ front mid e back, rootSlots f d = front ++ (mid ++ e :: back) ∧
      front.length + mid.length = x.slot ∧ (∀ e ∈ mid, IsLfn e) ∧
      (∀ s ∈ front ++ (mid ++ [e]), s.getD 0 0 ≠ 0) ∧
      rootSlots f (f12Remove f d name).2 = front ++ (mid.map mark ++ mark e :: back) ∧ Stops front mid := by
  rcases findName_entry found tidy.firsts with ⟨starts, inside, used⟩
  have freed := @freeChain_kept f d _ sound chainFuel tidy.chained starts
  have count : x.slot < (rootSlots f d).length := by
    rw [length_rootSlots]
    omega
  obtain ⟨front, e, back, root, len⟩ : ∃ front e back, rootSlots f d = front ++ e :: back ∧
      front.length = x.slot :=
    ⟨_, _, _, (List.take_append_drop x.slot _).symm.trans
      (by rw [List.drop_eq_getElem_cons count]), by rw [List.length_take]; omega⟩
  have root' : rootSlots f (freeChain f chainFuel d x.entry.firstCluster) = front ++ e :: back := by
    rw [freed.root, root]
  have chained := dirWriteSlot_mark_chained sound freed.chained x.slot
  have marked := rootSlots_mark root' len
  unfold mark at chained marked
  rcases eraseSlots_long sound chained le_rfl marked len with ⟨done, rest, mid, rfl, longs, after, stops⟩
  rw [f12Remove, found]
  dsimp only
  rw [eraseSlots]
  dsimp only
  rw [if_neg (fun no => no.1 rfl), if_neg (fun no => no.1 rfl)]
  refine ⟨done, rest, mid, e, back, ?_, ?_, longs, ?_, after, stops⟩
  · rw [root, List.append_assoc]
  · rw [← len, List.length_append]
  · intro s hs
    have mem : s ∈ (rest ++ mid) ++ [e] := by rwa [List.append_assoc]
    rcases List.mem_iff_getElem?.mp mem with ⟨j, hj⟩
    have small : j < ((rest ++ mid) ++ [e]).length := by
      rcases List.getElem?_eq_some_iff.mp hj with ⟨lt, -⟩
      exact lt
    refine used j s ?_ ?_
    · rw [List.length_append, len] at small
      exact small
    · have split : rootSlots f d = ((rest ++ mid) ++ [e]) ++ back := by
        rw [root, List.append_assoc (rest ++ mid)]
        rfl
      rw [split, List.getElem?_append_left small, hj]

theorem isChain_mark (mid : List (List UInt8)) (h : back.IsChain Follows) :
    (mid.map mark ++ back).IsChain Follows := by
  induction mid with
  | nil => exact h
  | cons m mid ih =>
    rw [List.map_cons, List.cons_append]
    exact List.isChain_cons.mpr ⟨fun _ _ => follows_mark, ih⟩

theorem f12Remove_tidy (sound : f.Sound) (tidy : Tidy f d) (name : List UInt8) :
    Tidy f (f12Remove f d name).2 := by
  cases found : findName f d name with
  | none =>
    rw [f12Remove, found]
    exact tidy
  | some x =>
    rcases f12Remove_split sound tidy found with ⟨chained, front, mid, e, back, root, -, longs, used, after,
      stops⟩
    have order := tidy.order
    rw [root, List.append_assoc, List.isChain_append] at order
    rcases order with ⟨fore, aft, join⟩
    have behind : (back ++ [blankSlot]).IsChain Follows := by
      rw [List.append_assoc, List.isChain_append] at aft
      exact aft.2.1.tail
    refine ⟨chained, ?_, ?_⟩
    · rw [after, List.append_assoc, List.isChain_append]
      refine ⟨fore, ?_, ?_⟩
      · have all := isChain_mark (mid ++ [e]) behind
        simpa using all
      · intro x hx y _
        have nonzero := used x (List.mem_append_left _ (List.mem_of_getLast? hx))
        refine .of_not nonzero fun lfn => ?_
        rcases stops x hx with short | ⟨m, hm, flagged⟩
        · exact short lfn.2
        · have first : m ∈ ((mid ++ e :: back) ++ [blankSlot]).head? := by
            rw [List.head?_append, List.head?_append, hm]
            rfl
          have follows := join x hx m first
          exact follows.begins ⟨follows.goesOn lfn, longs m (List.mem_of_head? hm)⟩ flagged lfn
    · intro s hs live short
      rw [after] at hs
      refine tidy.starts s ?_ live short
      rw [root]
      rcases List.mem_append.mp hs with hs | hs
      · exact List.mem_append_left _ hs
      rcases List.mem_append.mp hs with hs | hs
      · rcases List.mem_map.mp hs with ⟨m, -, rfl⟩
        exact absurd live (not_live_mark m)
      rcases List.mem_cons.mp hs with rfl | hs
      · exact absurd live (not_live_mark e)
      · exact List.mem_append_right _ (List.mem_append_right _ (List.mem_cons_of_mem _ hs))

/-- A scan then sees what it saw before, without that entry. -/
theorem f12Remove_scan (sound : f.Sound) (tidy : Tidy f d) {name : List UInt8} {x : Found}
    (found : findName f d name = some x) : ∃ before behind, dirScan f d = before ++ x :: behind ∧
      dirScan f (f12Remove f d name).2 = before ++ behind := by
  rcases f12Remove_split sound tidy found with ⟨-, front, mid, e, back, root, place, longs, used, after, -⟩
  rcases scanSlots_front (fun s hs => used s (List.mem_append_left _ hs)) 0 noName with ⟨l₁, scan, -, -⟩
  rcases @scanSlots_front mid
    (fun s hs => used s (List.mem_append_right _ (List.mem_append_left _ hs))) (0 + front.length) l₁
    with ⟨l₂, scan', -, -⟩
  have whole : dirScan f d = scanSlots front 0 noName ++ scanSlots (e :: back) x.slot l₂ := by
    rw [dirScan, root, scan, scan', scanSlots_long longs, List.nil_append, Nat.zero_add, place]
  have rest : dirScan f (f12Remove f d name).2 =
      scanSlots front 0 noName ++ scanSlots back (x.slot + 1) noName := by
    rw [dirScan, after, scan, scanSlots_mark, Nat.zero_add, place]
  have mem : x ∈ scanSlots front 0 noName ++ scanSlots (e :: back) x.slot l₂ := by
    rw [← whole]
    exact List.mem_of_find?_eq_some found
  have behind (l : LongName) : x ∉ scanSlots back (x.slot + 1) l := fun no =>
    absurd (mem_scanSlots no).1 (Nat.not_succ_le_self _)
  have here : x ∈ scanSlots (e :: back) x.slot l₂ := by
    rcases List.mem_append.mp mem with no | here
    · have lt := (mem_scanSlots no).2.1
      omega
    · exact here
  refine ⟨_, _, ?_, rest⟩
  rw [whole]
  congr 1
  rw [scanSlots] at here ⊢
  dsimp only at here ⊢
  split at here
  · cases here
  rename_i zero
  rw [if_neg zero]
  split at here
  · exact absurd here (behind _)
  rename_i live
  rw [if_neg live]
  split at here
  · exact absurd here (behind _)
  rename_i short
  rw [if_neg short]
  split at here
  · exact absurd here (behind _)
  rename_i file
  rw [if_neg file]
  rcases List.mem_cons.mp here with same | no
  · rw [← same]
  · exact absurd no (behind _)

end RPCortex.Fat12
