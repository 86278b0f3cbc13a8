import RPCortex.Fat12.Tidy

/-! Where `f12_write` puts the slots of a name: a run of free ones in front of the end of the directory,
behind an entry.  What it puts there keeps the directory in order. -/

namespace RPCortex.Fat12

open Lib

variable {f : F12} {d d' : Disk} {slot needed start first size mtime : Nat} {a b e : List UInt8}
  {name : List UInt8} {s : ShortName} {front old back slots pre run : List (List UInt8)}

/-! ### Free slots -/

/-- A place for an entry of `needed` slots. -/
structure Place (slots : List (List UInt8)) (needed : Nat) (front old back : List (List UInt8)) : Prop where
  split : slots = front ++ (old ++ back)
  count : old.length = needed
  free : ∀ e ∈ old, ¬Live e
  used : ∀ e ∈ front, e.getD 0 0 ≠ 0
  behind : ∀ e, front.getLast? = some e → Live e

theorem freeRunFrom_found (needed : Nat) (slots : List (List UInt8)) (slot : Nat)
    (run : Option (Nat × Nat)) (start : Nat) :
    freeRunFrom f needed slots slot run (some start) = some start := by
  induction slots generalizing slot run with
  | nil => rfl
  | cons e slots ih =>
    rw [freeRunFrom]
    simp only [reduceCtorEq, and_false, false_and, if_false, ih, ite_self]

theorem zeros_of_head (order : (e :: slots).IsChain Follows) (zero : e.getD 0 0 = 0) :
    ∀ x ∈ e :: slots, x.getD 0 0 = 0 := by
  induction slots generalizing e with
  | nil =>
    intro x hx
    rw [List.mem_singleton.mp hx]
    exact zero
  | cons y slots ih =>
    rcases List.isChain_cons_cons.mp order with ⟨head, rest⟩
    intro x hx
    rcases List.mem_cons.mp hx with rfl | hx
    · exact zero
    · exact ih rest (head.ended zero) x hx

/-- The search from a slot on, where `run` is the run that is open. -/
theorem freeRunFrom_place (order : slots.IsChain Follows) {o : Option (Nat × Nat)}
    (total : f.rootEntries = (pre ++ (run ++ slots)).length) (used : ∀ e ∈ pre, e.getD 0 0 ≠ 0)
    (erased : ∀ e ∈ run, e.getD 0 0 = 0xE5) (behind : ∀ e, pre.getLast? = some e → Live e)
    (slot_eq : slot = pre.length + run.length) (opened : o.getD (slot, 0) = (pre.length, run.length))
    (short : run.length < needed) (h : freeRunFrom f needed slots slot o none = some start) :
    ∃ front old back, front.length = start ∧ Place (pre ++ (run ++ slots)) needed front old back := by
  induction slots generalizing pre run o slot with
  | nil => exact absurd h.symm (Option.some_ne_none start)
  | cons e slots ih =>
    have deleted : ∀ x ∈ run, ¬Live x := fun x hx no => no.2 (erased x hx)
    rw [freeRunFrom] at h
    by_cases free : e.getD 0 0 = 0 ∨ e.getD 0 0 = 0xE5
    · have dead : ¬Live e := fun no => free.elim no.1 no.2
      rw [if_pos free] at h
      simp only [opened, and_true] at h
      by_cases enough : needed ≤ run.length + 1
      · -- the run is long enough with this slot
        have begin_ : pre.length = start := by
          simpa only [if_pos enough, reduceCtorEq, false_and, if_false, freeRunFrom_found, ite_self,
            Option.some.injEq] using h
        refine ⟨pre, run ++ [e], slots, begin_, by simp, ?_, ?_, used, behind⟩
        · rw [List.length_append, List.length_singleton]
          omega
        · intro x hx
          rcases List.mem_append.mp hx with hx | hx
          · exact deleted x hx
          · rw [List.mem_singleton.mp hx]
            exact dead
      · simp only [if_neg enough, true_and] at h
        by_cases zero : e.getD 0 0 = 0
        · -- what is left of the directory was never used
          rw [if_pos zero] at h
          have zeros := zeros_of_head order zero
          split at h
          · rename_i room
            have begin_ : pre.length = start := by simpa using h
            rw [List.length_append] at total
            have fits : needed ≤ (run ++ e :: slots).length := by omega
            refine ⟨pre, (run ++ e :: slots).take needed, (run ++ e :: slots).drop needed, begin_, ?_, ?_, ?_,
              used, behind⟩
            · rw [List.take_append_drop]
            · rw [List.length_take, Nat.min_eq_left fits]
            · intro x hx
              rcases List.mem_append.mp (List.mem_of_mem_take hx) with hx | hx
              · exact deleted x hx
              · exact fun no => no.1 (zeros x hx)
          · exact absurd h.symm (Option.some_ne_none start)
        · rw [if_neg zero] at h
          have more : ∃ front old back, front.length = start ∧
              Place (pre ++ ((run ++ [e]) ++ slots)) needed front old back := ih order.tail (by simpa using total)
            used
            (by
              intro x hx
              rcases List.mem_append.mp hx with hx | hx
              · exact erased x hx
              · rw [List.mem_singleton.mp hx]
                exact free.resolve_left zero)
            behind (by rw [List.length_append, List.length_singleton]; omega)
            (by rw [List.length_append, List.length_singleton]; rfl)
            (by rw [List.length_append, List.length_singleton]; omega) h
          simpa using more
    · rcases not_or.mp free with ⟨zero, live⟩
      rw [if_neg free] at h
      have more : ∃ front old back, front.length = start ∧
          Place ((pre ++ (run ++ [e])) ++ ([] ++ slots)) needed front old back := ih order.tail
        (by simpa using total)
        (by
          intro x hx
          rcases List.mem_append.mp hx with hx | hx
          · exact used x hx
          rcases List.mem_append.mp hx with hx | hx
          · rw [erased x hx]
            decide
          · rw [List.mem_singleton.mp hx]
            exact zero)
        (fun x no => absurd no List.not_mem_nil)
        (by
          intro x hx
          rw [← List.append_assoc, List.getLast?_concat] at hx
          cases hx
          exact ⟨zero, live⟩)
        (by simp only [List.length_append, List.length_singleton, List.length_nil]; omega)
        (by
          rw [Option.getD_none, slot_eq]
          simp only [List.length_append, List.length_singleton, List.length_nil, Nat.add_assoc])
        (by rw [List.length_nil]; omega) h
      simpa using more

/-- What `dir_scan` reports is a place for the entry, behind an entry. -/
theorem freeRun_place (tidy : Tidy f d) (whole : f.rootEntries = f.rootSectors * 16) (pos : 0 < needed)
    (h : freeRun f d needed = some start) : ∃ front old back, front.length = start ∧
      Place (rootSlots f d) needed front old back ∧ ∀ e, front.getLast? = some e → ¬Lfn e := by
  have found : ∃ front old back, front.length = start ∧
      Place ([] ++ ([] ++ rootSlots f d)) needed front old back :=
    freeRunFrom_place tidy.order.left_of_append
      (by rw [List.nil_append, List.nil_append, length_rootSlots, whole])
      (fun e no => absurd no List.not_mem_nil) (fun e no => absurd no List.not_mem_nil)
      (fun e no => absurd no.symm (Option.some_ne_none e)) rfl rfl pos h
  rcases found with ⟨front, old, back, len, place⟩
  refine ⟨front, old, back, len, place, fun e he lfn => ?_⟩
  have order := tidy.order
  obtain ⟨o, old', rfl⟩ := List.exists_cons_of_length_pos (place.count ▸ pos)
  have split : rootSlots f d = front ++ (o :: old' ++ back) := place.split
  rw [split, List.append_assoc, List.isChain_append] at order
  exact place.free o List.mem_cons_self ((order.2.2 e he o rfl).goesOn lfn)

/-! ### The slots of a name -/

theorem first_lfnEntry (name name83 : List UInt8) {seq : Nat} (last : Bool) (pos : 0 < seq) (few : seq ≤ 64) :
    Live (lfnEntry name name83 seq last) ∧
      (last = false → seq ≤ 63 → (lfnEntry name name83 seq last).getD 0 0 &&& 0x40 = 0) := by
  have bytes : ∀ q : Fin 65, 0 < q.val → ∀ last : Bool,
      let head : UInt8 := UInt8.ofNat q.val ||| (if last then 0x40 else 0)
      (head ≠ 0 ∧ head ≠ 0xE5) ∧ (last = false → q.val ≤ 63 → head &&& 0x40 = 0) := by decide +kernel
  exact bytes ⟨seq, Nat.lt_succ_of_le few⟩ pos last

theorem Follows.of_live (used : a.getD 0 0 ≠ 0) (live : Live b)
    (plain : ¬(IsLfn b ∧ b.getD 0 0 &&& 0x40 ≠ 0)) : Follows a b :=
  ⟨fun no => absurd no used, fun _ => live, fun lfn flagged => absurd ⟨lfn.2, flagged⟩ plain⟩

theorem rd16_fatDirent {n : List UInt8} {attr flags : UInt8} (h : n.length = 11) (small : first < 2 ^ 16) :
    rd16 (fatDirent n attr first size mtime flags) 26 = first := by
  have shape : fatDirent n attr first size mtime flags = (n ++ [attr, flags, 0] ++
      leEncode 2 (fatTimeEncode mtime).2 ++ leEncode 2 (fatTimeEncode mtime).1 ++
      leEncode 2 (fatTimeEncode mtime).1 ++ [0, 0] ++ leEncode 2 (fatTimeEncode mtime).2 ++
      leEncode 2 (fatTimeEncode mtime).1) ++ (leEncode 2 first ++ leEncode 4 size) := by
    simp [fatDirent]
  have len : (n ++ [attr, flags, 0] ++ leEncode 2 (fatTimeEncode mtime).2 ++
      leEncode 2 (fatTimeEncode mtime).1 ++ leEncode 2 (fatTimeEncode mtime).1 ++ [0, 0] ++
      leEncode 2 (fatTimeEncode mtime).2 ++ leEncode 2 (fatTimeEncode mtime).1).length = 26 := by
    simp [h]
  rw [rd16, shape, List.drop_left' len, List.take_left' (length_leEncode 2 first), leDecode_leEncode]
  exact Nat.mod_eq_of_lt small

/-- What is stored for a name is in order, whatever stands behind it. -/
theorem isChain_stored (shortened : fatShortname name = some s) (few : fatEntriesFor name ≤ 65)
    (h : back.IsChain Follows) : (storedSlots name s first size mtime ++ back).IsChain Follows := by
  have dirent : Live (fatDirent s.name 0x20 first size mtime s.caseFlags) := by
    rw [Live, head_fatDirent s.length_name]
    exact fatShortname_head shortened
  have short : ¬IsLfn (fatDirent s.name 0x20 first size mtime s.caseFlags) := by
    rw [IsLfn, attr_fatDirent s.length_name]
    decide
  rw [storedSlots, List.append_assoc, List.isChain_append]
  refine ⟨?_, List.isChain_cons.mpr ⟨fun _ _ => .of_not dirent.1 fun no => short no.2, h⟩, ?_⟩
  · rw [List.isChain_map, List.isChain_range]
    intro m hm
    have this := first_lfnEntry name s.name (decide (m = 0)) (by omega : 0 < fatEntriesFor name - 1 - m) (by omega)
    have next := first_lfnEntry name s.name (decide (m.succ = 0))
      (by omega : 0 < fatEntriesFor name - 1 - m.succ) (by omega)
    exact .of_live this.1.1 next.1 fun no => no.2 (next.2 rfl (by omega))
  · intro x hx y hy
    rcases List.mem_map.mp (List.mem_of_getLast? hx) with ⟨i, hi, rfl⟩
    rw [List.mem_range] at hi
    cases hy
    have this := first_lfnEntry name s.name (decide (i = 0)) (by omega : 0 < fatEntriesFor name - 1 - i) (by omega)
    exact .of_live this.1.1 dirent fun no => short no.1

theorem mem_storedSlots (h : e ∈ storedSlots name s first size mtime) (short : ¬IsLfn e) :
    e = fatDirent s.name 0x20 first size mtime s.caseFlags := by
  rcases List.mem_append.mp h with hl | hd
  · rcases List.mem_map.mp hl with ⟨i, -, rfl⟩
    exact absurd (by rw [IsLfn, attr_lfnEntry]; decide) short
  · exact List.mem_singleton.mp hd

/-! ### Writing -/

theorem Tidy.writeEntries (sound : f.Sound) (tidy : Tidy f d) (shortened : fatShortname name = some s)
    (few : fatEntriesFor name ≤ 65) (starts : first ≠ 0 → f.Has first)
    (place : Place (rootSlots f d) (fatEntriesFor name) front old back)
    (behind : ∀ e, front.getLast? = some e → ¬Lfn e) :
    Tidy f (writeEntries f d front.length (fatEntriesFor name) name s
      (fatDirent s.name 0x20 first size mtime s.caseFlags)) := by
  rcases rootSlots_writeEntries s first size mtime sound tidy.chained place.split place.count
    with ⟨chained, after⟩
  have order := tidy.order
  rw [place.split, List.append_assoc, List.isChain_append, List.append_assoc, List.isChain_append] at order
  rcases order with ⟨fore, ⟨-, aft, -⟩, -⟩
  refine ⟨chained, ?_, ?_⟩
  · rw [after, List.append_assoc, List.append_assoc, List.isChain_append]
    refine ⟨fore, isChain_stored shortened few aft, fun x hx y _ => ?_⟩
    exact .of_not (place.used x (List.mem_of_getLast? hx)) (behind x hx)
  · intro e he live short
    rw [after] at he
    have kept : e ∈ front ∨ e ∈ back → e ∈ rootSlots f d := by
      intro mem
      rw [place.split, List.mem_append, List.mem_append]
      tauto
    rcases List.mem_append.mp he with he | he
    · exact tidy.starts e (kept (.inl he)) live short
    rcases List.mem_append.mp he with he | he
    · have few := f.clusters_lt
      rw [mem_storedSlots he short, rd16_fatDirent s.length_name]
      · intro on
        refine (starts ?_).2
        rintro rfl
        exact absurd on (by decide)
      · by_cases none : first = 0
        · omega
        · have := (starts none).2
          omega
    · exact tidy.starts e (kept (.inr he)) live short

theorem fatEntriesFor_le (brief : name.length ≤ 832) : fatEntriesFor name ≤ 65 := by
  unfold fatEntriesFor lfnLength
  split
  · omega
  · omega

theorem f12Write_tidy (sound : f.Sound) (whole : f.rootEntries = f.rootSectors * 16) (tidy : Tidy f d)
    (brief : name.length ≤ 832) (size mtime : Nat) (src : Nat → Nat → List UInt8) :
    Tidy f (f12Write f d name size mtime src).2 := by
  have cleared : Tidy f (if (f12Find f d name).isSome then (f12Remove f d name).2 else d) := by
    split
    · exact f12Remove_tidy sound tidy name
    · exact tidy
  rw [f12Write]
  split
  · exact tidy
  dsimp only
  generalize (if (f12Find f d name).isSome then (f12Remove f d name).2 else d) = d₁ at cleared ⊢
  cases shortened : fatShortname name with
  | none => exact cleared
  | some s =>
    dsimp only
    cases got : freeRun f d₁ (fatEntriesFor name) with
    | none => exact cleared
    | some start =>
      rcases freeRun_place cleared whole (one_le_fatEntriesFor name) got with
        ⟨front, old, back, rfl, place, behind⟩
      rcases writeData_kept sound src size (size + 1) 0 cleared.chained
        (fun no => absurd rfl no) (fun no => absurd rfl no) with ⟨kept, has⟩
      dsimp only
      cases data : writeData f src size (size + 1) 0 0 0 d₁ with
      | mk o d₂ =>
        rw [data] at kept has
        have tidy' := cleared.kept kept
        cases o with
        | none => exact tidy'
        | some first =>
          dsimp only at kept has ⊢
          rw [← kept.root] at place
          exact tidy'.writeEntries sound shortened (fatEntriesFor_le brief) (has first rfl) place behind

end RPCortex.Fat12
