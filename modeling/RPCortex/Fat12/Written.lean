import RPCortex.Fat12.Chain
import RPCortex.Fat12.Placed

/-! What was written can be read back.  On every volume that only `f12_write` and `f12_remove` changed since
it was formatted, a write that succeeds is found under its name and read as it was written, where no second
entry goes by that name. -/

namespace RPCortex.Fat12

open Lib

variable {f : F12} {d d' : Disk} {slot start c n first size mtime : Nat} {e name data : List UInt8}
  {s : ShortName}

/-! ### What the directory and the data do to each other -/

theorem dirWriteSlot_sameAt (sound : f.Sound) (len : e.length = 32) (inside : slot < f.rootSectors * 16)
    (has : f.Has c) : SameAt f d (dirWriteSlot f d slot e) c := by
  have place : f.slotAddr slot + 32 ≤ (f.firstRoot + f.rootSectors) * 512 := by
    unfold F12.slotAddr
    omega
  have front : (f.firstRoot + f.rootSectors) * 512 ≤ f.lbaOf c * 512 :=
    Nat.mul_le_mul_right _ (sound.data.trans (Nat.le_add_right _ _))
  refine ⟨fatGet_congr sound has.2 fun a ha => ?_, window_congr fun i _ => ?_⟩
  · have before : a < f.slotAddr slot := lt_of_lt_of_le ha (Nat.le_add_right _ _)
    rw [bytes_dirWriteSlot len, store_outside (.inl before)]
  · rw [bytes_dirWriteSlot len, store_outside]
    right
    rw [len]
    exact (place.trans front).trans (Nat.le_add_right _ _)

theorem SameAt.refl (f : F12) (d : Disk) (c : Nat) : SameAt f d d c := ⟨rfl, rfl⟩

theorem writeEntries_sameAt (sound : f.Sound) (inside : start + fatEntriesFor name ≤ f.rootSectors * 16)
    (has : f.Has c) : SameAt f d (writeEntries f d start (fatEntriesFor name) name s
      (fatDirent s.name 0x20 first size mtime s.caseFlags)) c := by
  have pos := one_le_fatEntriesFor name
  have some_ (n : Nat) (hn : n < fatEntriesFor name) : SameAt f d ((List.range n).foldl (fun d i =>
      dirWriteSlot f d (start + i) (lfnEntry name s.name (fatEntriesFor name - 1 - i) (i = 0))) d) c := by
    induction n with
    | zero => exact SameAt.refl f d c
    | succ n ih =>
      rw [List.range_succ, List.foldl_append]
      exact (ih (by omega)).trans (dirWriteSlot_sameAt sound length_lfnEntry (by omega) has)
  rw [writeEntries]
  exact (some_ _ (by omega)).trans (dirWriteSlot_sameAt sound
    (length_fatDirent _ _ _ _ _ s.length_name) (by omega) has)

/-! ### Names -/

/-- A name of printable characters that the buffer of an entry takes. -/
structure Printable (name : List UInt8) : Prop where
  short : name.length ≤ 63
  chars : ∀ c ∈ name, 0x20 ≤ c ∧ c ≤ 0x7E

theorem Printable.told (h : Printable name) : Told name :=
  .inr fun c hc => UInt8.le_trans (h.chars c hc).2 (by decide)

theorem Printable.nonzero (h : Printable name) : 0 ∉ name :=
  fun no => absurd (h.chars 0 no).1 (by decide)

/-- Whether an entry goes by a name. -/
def Found.goesBy (name : List UInt8) (e : Found) : Bool := ieq e.entry.name name || ieq e.short name

/-- The entries that go by a name. -/
def matching (f : F12) (d : Disk) (name : List UInt8) : List Found :=
  (dirScan f d).filter (Found.goesBy name)

theorem findName_none : findName f d name = none ↔ matching f d name = [] := by
  unfold findName matching
  rw [List.find?_eq_none, List.filter_eq_nil_iff]
  rfl

/-- Where one entry at most goes by a name, none does once it is removed. -/
theorem f12Remove_alone (sound : f.Sound) (tidy : Tidy f d) (alone : (matching f d name).length ≤ 1) :
    findName f (if (f12Find f d name).isSome then (f12Remove f d name).2 else d) name = none := by
  cases found : findName f d name with
  | none =>
    have unknown : (f12Find f d name).isSome = false := by rw [f12Find, found]; rfl
    rw [unknown]
    exact found
  | some x =>
    have known : (f12Find f d name).isSome = true := by rw [f12Find, found]; rfl
    rcases f12Remove_scan sound tidy found with ⟨before, behind, whole, rest⟩
    have same : x.goesBy name = true := List.find?_some found
    rw [if_pos known, findName_none, matching, rest, List.filter_append]
    rw [matching, whole, List.filter_append, List.filter_cons_of_pos same, List.length_append,
      List.length_cons] at alone
    rw [List.length_eq_zero_iff.mp (by omega : (before.filter (Found.goesBy name)).length = 0),
      List.length_eq_zero_iff.mp (by omega : (behind.filter (Found.goesBy name)).length = 0)]
    rfl

/-! ### Runs -/

/-- A call whose name fits into 64 slots. -/
def Call.Brief : Call → Prop
  | .write name _ _ _ => name.length ≤ 832
  | _ => True

theorem f12Format_spc {total serial : Nat} {d₀ : Disk} {label : List UInt8}
    (h : f12Format total d₀ label serial = some (f, d)) : f.spc = 1 := by
  unfold f12Format at h
  split at h
  · cases h
  · split at h
    · cases h
    · cases h
      rfl

theorem f12Format_tidy {total serial : Nat} {d₀ : Disk} {label : List UInt8} (roomy : Roomy total)
    (h : f12Format total d₀ label serial = some (f, d)) : Tidy f d := by
  obtain ⟨-, -, -, chained, root⟩ := f12Format_fresh roomy h
  have width : (padTo 11 (label.take 11)).length = 11 := length_padTo (List.length_take_le _ _)
  have plain : ¬IsLfn (fatDirentLabel label) := by
    rw [IsLfn, fatDirentLabel, attr_fatDirent width]
    decide
  have blank : ¬Live blankSlot := fun no => no.1 rfl
  refine ⟨chained, ?_, ?_⟩
  · rw [root, List.cons_append, ← List.replicate_succ', List.isChain_cons]
    refine ⟨fun y hy => ?_, ?_⟩
    · cases hy
      exact ⟨fun _ => rfl, fun no => absurd no.2 plain, fun no => absurd no.1 blank⟩
    · refine List.isChain_replicate_of_rel _ ?_
      exact ⟨fun _ => rfl, fun no => absurd no.1 blank, fun no => absurd no.1 blank⟩
  · intro e he live _
    rw [root] at he
    rcases List.mem_cons.mp he with rfl | he
    · rw [fatDirentLabel, rd16_fatDirent width (by decide)]
      exact fun no => absurd no (by decide)
    · rw [List.eq_of_mem_replicate he] at live
      exact absurd live blank

theorem Call.tidy (sound : f.Sound) (whole : f.rootEntries = f.rootSectors * 16) (tidy : Tidy f d)
    {call : Call} (brief : call.Brief) : Tidy f (call.run f d) := by
  cases call with
  | write name size mtime src => exact f12Write_tidy sound whole tidy brief size mtime src
  | remove name => exact f12Remove_tidy sound tidy name
  | list => exact tidy
  | find name => exact tidy
  | read e cur off len => exact tidy
  | freeBytes => exact tidy

/-! ### Reading back -/

/-- The name is listed and found, and its entry is read as `data`, anywhere and with any cursor on it. -/
def ReadsBack (f : F12) (d : Disk) (name data : List UInt8) : Prop :=
  ∃ e ∈ f12List f d, e.name = name ∧ f12Find f d name = some e ∧ e.size = data.length ∧
    ∀ cur off len, CursorOn f d e cur → off + len < 2 ^ 32 →
      (f12Read f d e cur off len).1 = (data.drop off).take len

/-- One write to a directory in order, where no second entry goes by the name. -/
theorem f12Write_reads_back (sound : f.Sound) (spc : f.spc = 1) (whole : f.rootEntries = f.rootSectors * 16)
    (tidy : Tidy f d) (printable : Printable name) (small : data.length < 2 ^ 32)
    (alone : (matching f d name).length ≤ 1)
    (written : f12Write f d name data.length mtime (slice data) = (true, d')) :
    ReadsBack f d' name data := by
  have unknown := f12Remove_alone sound tidy alone
  have cleared : Tidy f (if (f12Find f d name).isSome then (f12Remove f d name).2 else d) := by
    split
    · exact f12Remove_tidy sound tidy name
    · exact tidy
  rw [f12Write] at written
  split at written
  · cases written
  dsimp only at written
  generalize (if (f12Find f d name).isSome then (f12Remove f d name).2 else d) = d₁
    at unknown cleared written
  cases shortened : fatShortname name with
  | none =>
    rw [shortened] at written
    cases written
  | some s =>
    rw [shortened] at written
    dsimp only at written
    cases got : freeRun f d₁ (fatEntriesFor name) with
    | none =>
      rw [got] at written
      cases written
    | some start =>
      rw [got] at written
      dsimp only at written
      rcases freeRun_place cleared whole (one_le_fatEntriesFor name) got with
        ⟨front, old, back, rfl, place, behind⟩
      rcases writeData_kept sound (slice data) data.length (data.length + 1) 0
        cleared.chained (fun no => absurd rfl no) (fun no => absurd rfl no) with ⟨kept, has⟩
      cases out : writeData f (slice data) data.length (data.length + 1) 0 0 0 d₁ with
      | mk o d₂ =>
        rw [out] at kept has written
        cases o with
        | none => cases written
        | some first =>
          dsimp only at kept has written
          obtain rfl : writeEntries f d₂ front.length (fatEntriesFor name) name s
            (fatDirent s.name 0x20 first data.length mtime s.caseFlags) = d' := by simpa using written
          -- the directory
          have split₂ : rootSlots f d₂ = front ++ (old ++ back) := by rw [kept.root, place.split]
          rcases rootSlots_writeEntries s first data.length mtime sound kept.chained split₂ place.count
            with ⟨-, after⟩
          rcases scanSlots_front place.used 0 noName with ⟨l, scan, start, last⟩
          have fresh : l.ok = false := by
            cases hl : front.getLast? with
            | none =>
              rw [start (List.getLast?_eq_none_iff.mp hl)]
              rfl
            | some z => exact last z hl (behind z hl)
          rcases scanSlots_found back (0 + front.length) first mtime fresh shortened small printable.told
            printable.short printable.nonzero with ⟨x, here, ⟨named, sized, file, -⟩, begins⟩
          have seen := scan (storedSlots name s first data.length mtime ++ back)
          rw [here] at seen
          have others : (scanSlots front 0 noName).find? (Found.goesBy name) = none := by
            have none_ : (dirScan f d₁).find? (Found.goesBy name) = none := unknown
            rw [dirScan, place.split, scan, List.find?_append, Option.or_eq_none_iff] at none_
            exact none_.1
          have same : x.goesBy name = true := by
            rw [Found.goesBy, named, ieq_iff.mpr rfl, Bool.true_or]
          -- the data
          have firsts : first < 2 ^ 16 := by
            have few := f.clusters_lt
            by_cases zero : first = 0
            · omega
            · have := (has first rfl zero).2
              omega
          rw [rd16_fatDirent s.length_name firsts] at begins
          have holds : Holds f d₂ first data := by
            rcases writeData_holds sound spc (fun no => absurd rfl no) (by omega) out with ⟨-, -, rest⟩
            by_cases empty : data = []
            · rw [empty]
              exact .nil
            · rcases rest (List.length_pos_iff.mpr empty) with ⟨c, -, eq, -, chain⟩
              rw [if_pos rfl] at eq
              rw [eq]
              exact chain
          have inside : front.length + fatEntriesFor name ≤ f.rootSectors * 16 := by
            have len : (rootSlots f d₂).length = front.length + (old.length + back.length) := by
              rw [split₂, List.length_append, List.length_append]
            rw [length_rootSlots, place.count] at len
            omega
          refine ⟨x.entry, ?_, named, ?_, sized, fun cur off len on fits => ?_⟩
          · rw [f12List, dirScan, after, seen]
            exact List.mem_map_of_mem (List.mem_append_right _ List.mem_cons_self)
          · rw [f12Find]
            show ((dirScan f _).find? (Found.goesBy name)).map Found.entry = some x.entry
            rw [dirScan, after, seen, List.find?_append, others, Option.none_or, List.find?_cons_of_pos same]
            rfl
          · have chain : Holds f (writeEntries f d₂ front.length (fatEntriesFor name) name s
                (fatDirent s.name 0x20 first data.length mtime s.caseFlags)) x.entry.firstCluster data := by
              rw [begins]
              exact holds.congr fun c hc => writeEntries_sameAt sound inside hc
            exact chain.f12Read spc file sized fits on

/-- After any calls on a formatted volume whose names fit into 64 slots, a write that succeeds can be read
back, where no second entry goes by the name. -/
theorem written_reads_back {total serial : Nat} {d₀ : Disk} {label : List UInt8} {u : Use}
    (roomy : Roomy total) (formatted : f12Format total d₀ label serial = some (f, d))
    (run : Run (use f) (fun _ call => call.Brief) ⟨d, []⟩ u) (printable : Printable name)
    (small : data.length < 2 ^ 32) (alone : (matching f u.disk name).length ≤ 1)
    (written : f12Write f u.disk name data.length mtime (slice data) = (true, d')) :
    ReadsBack f d' name data := by
  obtain ⟨sound, entries, sectors, -, -⟩ := f12Format_fresh roomy formatted
  have whole : f.rootEntries = f.rootSectors * 16 := by rw [entries, sectors]
  have tidy : Tidy f u.disk := by
    refine run.invariant (P := fun u => Tidy f u.disk) (f12Format_tidy roomy formatted) ?_
    intro u call u' tidy brief taken
    cases taken
    exact call.tidy sound whole tidy brief
  exact f12Write_reads_back sound (f12Format_spc formatted) whole tidy printable small alone written

/-! ### A medium of twelve sectors -/

/-- A medium of zeros. -/
def zeroDisk : Disk := ⟨fun _ => 0⟩

/-- A file that is written over. -/
theorem written_reads_back_over : ∃ f d d', f12Format 12 zeroDisk driveLabel 0 = some (f, d) ∧
    ReadsBack f d' (ascii "A") [7] := by
  let old : Call := .write (ascii "A") 1 0 (slice [5])
  have ok : (f12Format 12 zeroDisk driveLabel 0).map (fun r =>
      decide ((matching r.1 (old.run r.1 r.2) (ascii "A")).length ≤ 1) &&
        (f12Write r.1 (old.run r.1 r.2) (ascii "A") 1 0 (slice [7])).1) = some true := by decide +kernel
  rcases Option.map_eq_some_iff.mp ok with ⟨⟨f, d⟩, formatted, facts⟩
  rw [Bool.and_eq_true, decide_eq_true_eq] at facts
  have brief : old.Brief := by
    show (ascii "A").length ≤ 832
    decide
  have run : Run (use f) (fun _ call => call.Brief) ⟨d, []⟩ ⟨old.run f d, [] ++ old.io f d⟩ :=
    @Run.tail _ _ _ _ _ _ _ old .refl brief rfl
  have printable : Printable (ascii "A") := ⟨by decide, by decide +kernel⟩
  exact ⟨f, d, _, formatted, written_reads_back (by decide) formatted run printable (by norm_num) facts.1
    (Prod.ext facts.2 rfl)⟩

/-- Two files, the 8.3 form of the second one's name being the name of the first one. -/
def aliased (f : F12) (d : Disk) : Disk :=
  (Call.write (ascii "longname2x.txt") 0 0 (slice [])).run f
    ((Call.write (ascii "longname.txt") 0 0 (slice [])).run f d)

/-- A write under that name, in other letters, removes the first one of them only and is stored behind
the second one, which is found from then on. -/
theorem not_written_reads_back :
    ¬∀ total serial d₀ label f d u name data mtime d', f12Format total d₀ label serial = some (f, d) →
      Run (use f) (fun _ _ => True) ⟨d, []⟩ u → Printable name → data.length < 2 ^ 32 →
      f12Write f u.disk name data.length mtime (slice data) = (true, d') → ReadsBack f d' name data := by
  intro h
  have ok : (f12Format 12 zeroDisk driveLabel 0).map (fun r =>
      let w := f12Write r.1 (aliased r.1 r.2) (ascii "LongName.txt") 0 0 (slice [])
      w.1 && decide ((f12Find r.1 w.2 (ascii "LongName.txt")).map F12Entry.name =
        some (ascii "longname2x.txt"))) = some true := by decide +kernel
  rcases Option.map_eq_some_iff.mp ok with ⟨⟨f, d⟩, formatted, facts⟩
  rw [Bool.and_eq_true, decide_eq_true_eq] at facts
  have run : ∃ log, Run (use f) (fun _ _ => True) ⟨d, []⟩ ⟨aliased f d, log⟩ :=
    ⟨_, @Run.tail _ _ _ _ _ _ _ (.write (ascii "longname2x.txt") 0 0 (slice []))
      (@Run.tail _ _ _ _ _ _ _ (.write (ascii "longname.txt") 0 0 (slice [])) .refl trivial rfl) trivial rfl⟩
  rcases run with ⟨log, run⟩
  have printable : Printable (ascii "LongName.txt") := ⟨by decide, by decide +kernel⟩
  rcases h 12 0 zeroDisk driveLabel f d _ _ [] 0 _ formatted run printable (by norm_num)
    (Prod.ext facts.1 rfl) with ⟨e, -, named, found, -⟩
  have first : some e.name = some (ascii "longname2x.txt") := by
    rw [← facts.2, ← Option.map_some, ← found]
    rfl
  rw [named] at first
  exact absurd first (by decide)

end RPCortex.Fat12
