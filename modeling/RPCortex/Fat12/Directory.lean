import RPCortex.Fat12.Entries

/-! The root directory of a drive that only the device has written: the label, what was stored for
each file in turn, and slots that were never used.  Writing a file under a name that is not there
adds what is stored for it. -/

namespace RPCortex.Fat12

open Lib

/-- The label of the drive. -/
def driveLabel : List UInt8 := ascii "RPCORTEX"

/-- A file on the drive. -/
structure Stored where
  name : List UInt8
  short : ShortName
  first : Nat
  size : Nat
  mtime : Nat
  shortened : fatShortname name = some short
  told : Told name
  fits : name.length ≤ 63
  nonzero : 0 ∉ name
  small : size < 2 ^ 32

namespace Stored

def slots (w : Stored) : List (List UInt8) := storedSlots w.name w.short w.first w.size w.mtime

/-- An entry that a scan makes of it. -/
def Seen (w : Stored) (x : Found) : Prop :=
  x.entry.name = w.name ∧ x.entry.size = w.size ∧ x.entry.isDir = false ∧ x.short = w.short.shown

end Stored

/-- The slots before the first free one. -/
def usedSlots (files : List Stored) : List (List UInt8) :=
  fatDirentLabel driveLabel :: files.flatMap Stored.slots

/-- The drive holds `files`. -/
structure Laid (f : F12) (d : Disk) (files : List Stored) : Prop where
  sound : f.Sound
  whole : f.rootEntries = f.rootSectors * 16
  chained : Chained f d
  root : ∃ blanks, rootSlots f d = usedSlots files ++ List.replicate blanks blankSlot

variable {f : F12} {d d' : Disk} {files : List Stored} {blanks slot : Nat}

theorem f12Format_laid {total serial : Nat} (roomy : Roomy total)
    (h : f12Format total d driveLabel serial = some (f, d')) : Laid f d' [] := by
  obtain ⟨sound, entries, sectors, chained, root⟩ := f12Format_fresh roomy h
  exact ⟨sound, by rw [entries, sectors], chained, 127, root⟩

theorem Laid.kept (laid : Laid f d files) (h : Kept f d d') : Laid f d' files where
  sound := laid.sound
  whole := laid.whole
  chained := h.chained
  root := by
    rw [h.root]
    exact laid.root

/-! ### Scanning -/

theorem scanSlots_blank {l : LongName} : scanSlots (List.replicate blanks blankSlot) slot l = [] := by
  cases blanks with
  | zero => rfl
  | succ n =>
    rw [List.replicate_succ, scanSlots]
    exact if_pos rfl

theorem scanSlots_files (files : List Stored) (blanks slot : Nat) : ∃ found, scanSlots (files.flatMap Stored.slots ++
    List.replicate blanks blankSlot) slot noName = found ∧ List.Forall₂ Stored.Seen files found := by
  induction files generalizing slot with
  | nil => exact ⟨[], scanSlots_blank, .nil⟩
  | cons w files ih =>
    obtain ⟨x, scanned, seen⟩ := scanSlots_stored
      (files.flatMap Stored.slots ++ List.replicate blanks blankSlot) slot w.first w.mtime w.shortened
      w.small w.told w.fits w.nonzero
    obtain ⟨found, rest, all⟩ := ih (slot + fatEntriesFor w.name)
    refine ⟨x :: found, ?_, .cons seen all⟩
    rw [List.flatMap_cons, List.append_assoc, Stored.slots, scanned, rest]

theorem scanSlots_label {rest : List (List UInt8)} :
    scanSlots (fatDirentLabel driveLabel :: rest) slot noName = scanSlots rest (slot + 1) noName := by
  have head : (fatDirentLabel driveLabel).getD 0 0 = 0x52 := by decide
  have attr : (fatDirentLabel driveLabel).getD 11 0 = 0x08 := by decide
  rw [scanSlots]
  simp only [head, attr]
  rfl

/-- A scan of the drive sees its files, in order. -/
theorem Laid.scan (laid : Laid f d files) : List.Forall₂ Stored.Seen files (dirScan f d) := by
  obtain ⟨blanks, root⟩ := laid.root
  obtain ⟨found, scanned, seen⟩ := scanSlots_files files blanks 1
  rw [dirScan, root, usedSlots, List.cons_append, scanSlots_label, scanned]
  exact seen

/-! ### Free slots -/

/-- A slot in use. -/
def Live (e : List UInt8) : Prop := e.getD 0 0 ≠ 0 ∧ e.getD 0 0 ≠ 0xE5

theorem freeRunFrom_used {needed start : Nat} {used : List (List UInt8)} (live : ∀ e ∈ used, Live e)
    (pos : 0 < needed) (whole : f.rootEntries = slot + used.length + blanks)
    (h : freeRunFrom f needed (used ++ List.replicate blanks blankSlot) slot none none = some start) :
    start = slot + used.length ∧ needed ≤ blanks := by
  induction used generalizing slot with
  | nil =>
    cases blanks with
    | zero => cases h
    | succ n =>
      rw [List.nil_append, List.replicate_succ, freeRunFrom] at h
      have head : blankSlot.getD 0 0 = 0 := rfl
      simp only [head, true_or, if_true, Option.getD_none, Nat.zero_add, and_true] at h
      simp only [List.length_nil, Nat.add_zero] at whole ⊢
      by_cases one : needed ≤ 1
      · simp only [if_pos one, reduceCtorEq, false_and, if_false, Option.some.injEq] at h
        omega
      · simp only [if_neg one, true_and] at h
        split at h
        · simp only [Option.some.injEq] at h
          omega
        · cases h
  | cons e used ih =>
    obtain ⟨nonzero, undeleted⟩ := live e (by simp)
    rw [List.cons_append, freeRunFrom, if_neg (not_or.mpr ⟨nonzero, undeleted⟩)] at h
    obtain ⟨rfl, enough⟩ := ih (fun x hx => live x (List.mem_cons_of_mem _ hx))
      (by rw [List.length_cons] at whole; omega) h
    exact ⟨by rw [List.length_cons]; omega, enough⟩

theorem mem_slots {w : Stored} {e : List UInt8} (h : e ∈ w.slots) : Live e ∧ e.length = 32 := by
  have fits := w.fits
  rcases List.mem_append.mp h with hl | hd
  · obtain ⟨i, hi, rfl⟩ := List.mem_map.mp hl
    rw [List.mem_range] at hi
    have few : fatEntriesFor w.name - 1 ≤ 5 := by
      unfold fatEntriesFor lfnLength
      split <;> omega
    obtain ⟨nonzero, undeleted, -⟩ := head_lfnEntry w.name w.short.name (i = 0)
      (by omega : 0 < fatEntriesFor w.name - 1 - i) (by omega)
    exact ⟨⟨nonzero, undeleted⟩, length_lfnEntry⟩
  · obtain rfl := List.mem_singleton.mp hd
    have len := w.short.length_name
    refine ⟨?_, length_fatDirent _ _ _ _ _ len⟩
    rw [Live, head_fatDirent len]
    exact fatShortname_head w.shortened

theorem live_used {e : List UInt8} (h : e ∈ usedSlots files) : Live e := by
  rcases List.mem_cons.mp h with rfl | h
  · exact ⟨by decide, by decide⟩
  · obtain ⟨w, -, he⟩ := List.mem_flatMap.mp h
    exact (mem_slots he).1

theorem Laid.length_root (laid : Laid f d files) (h : rootSlots f d = usedSlots files ++
    List.replicate blanks blankSlot) : f.rootEntries = (usedSlots files).length + blanks := by
  rw [laid.whole, ← length_rootSlots (d := d), h, List.length_append, List.length_replicate]

/-! ### Writing a file -/

theorem rootSlots_writeEntries {name : List UInt8} {front old back : List (List UInt8)} (s : ShortName)
    (first size mtime : Nat) (sound : f.Sound) (chained : Chained f d)
    (root : rootSlots f d = front ++ (old ++ back)) (count : old.length = fatEntriesFor name) :
    let d' := writeEntries f d front.length (fatEntriesFor name) name s
      (fatDirent s.name 0x20 first size mtime s.caseFlags)
    Chained f d' ∧ rootSlots f d' = front ++ (storedSlots name s first size mtime ++ back) := by
  obtain ⟨n, hn⟩ : ∃ n, fatEntriesFor name = n + 1 :=
    ⟨fatEntriesFor name - 1, by have := one_le_fatEntriesFor name; omega⟩
  rw [hn] at count
  obtain rfl | ⟨old, x, rfl⟩ := List.eq_nil_or_concat' old
  · exact absurd count (Nat.succ_ne_zero n).symm
  have before : rootSlots f d = front ++ old ++ x :: back := by simpa using root
  obtain ⟨chained', after⟩ := rootSlots_foldl sound
    (g := fun i => lfnEntry name s.name (n - i) (i = 0)) (fun _ => length_lfnEntry) before
    (by simpa using count) chained
  have len := length_fatDirent 0x20 s.caseFlags first size mtime s.length_name
  have stored : storedSlots name s first size mtime = (List.range n).map (fun i =>
      lfnEntry name s.name (n - i) (i = 0)) ++ [fatDirent s.name 0x20 first size mtime s.caseFlags] := by
    rw [storedSlots, hn]
    rfl
  rw [writeEntries]
  simp only [hn, Nat.add_sub_cancel]
  refine ⟨dirWriteSlot_chained sound chained' len, ?_⟩
  rw [rootSlots_dirWriteSlot len, after, stored, List.append_assoc, List.set_append_right _ _ (by omega),
    Nat.add_sub_cancel_left, List.set_append_right _ _ (by simp)]
  simp

/-- The entries of a file behind those of the others. -/
theorem Laid.writeEntries (laid : Laid f d files) (w : Stored)
    (root : rootSlots f d = usedSlots files ++ List.replicate blanks blankSlot)
    (room : fatEntriesFor w.name ≤ blanks) :
    Laid f (writeEntries f d (usedSlots files).length (fatEntriesFor w.name) w.name w.short
      (fatDirent w.short.name 0x20 w.first w.size w.mtime w.short.caseFlags)) (files ++ [w]) := by
  obtain ⟨k, rfl⟩ := Nat.exists_eq_add_of_le room
  have split : rootSlots f d = usedSlots files ++ (List.replicate (fatEntriesFor w.name) blankSlot ++
      List.replicate k blankSlot) := by rw [root, List.replicate_append_replicate]
  obtain ⟨chained, after⟩ := rootSlots_writeEntries w.short w.first w.size w.mtime laid.sound laid.chained
    split List.length_replicate
  have used : usedSlots (files ++ [w]) = usedSlots files ++ w.slots := by simp [usedSlots]
  refine ⟨laid.sound, laid.whole, chained, k, ?_⟩
  rw [after, used, Stored.slots, List.append_assoc]

/-- A file under a name that the drive does not know is added or, when there is no room for it,
leaves the directory as it was. -/
theorem Laid.f12Write (laid : Laid f d files) {name : List UInt8} {size : Nat} (mtime : Nat)
    (src : Nat → Nat → List UInt8) (unknown : f12Find f d name = none) (told : Told name)
    (fits : name.length ≤ 63) (nonzero : 0 ∉ name) (small : size < 2 ^ 32) :
    let r := f12Write f d name size mtime src
    (r.1 = false ∧ Laid f r.2 files) ∨
      (r.1 = true ∧ ∃ w : Stored, w.name = name ∧ w.size = size ∧ Laid f r.2 (files ++ [w])) := by
  rw [Fat12.f12Write]
  simp only [unknown, Option.isSome_none, Bool.false_eq_true, if_false]
  split
  · exact Or.inl ⟨rfl, laid⟩
  cases shortened : fatShortname name with
  | none => exact Or.inl ⟨rfl, laid⟩
  | some s =>
    dsimp only
    cases run : freeRun f d (fatEntriesFor name) with
    | none => exact Or.inl ⟨rfl, laid⟩
    | some start =>
      obtain ⟨blanks, root⟩ := laid.root
      have entries := laid.length_root root
      obtain ⟨place, room⟩ : start = 0 + (usedSlots files).length ∧ fatEntriesFor name ≤ blanks := by
        rw [freeRun, root] at run
        exact freeRunFrom_used (fun e => live_used) (one_le_fatEntriesFor name) (by omega) run
      rw [Nat.zero_add] at place
      subst place
      obtain ⟨kept, -⟩ := writeData_kept laid.sound src size (size + 1) 0 laid.chained
        (fun no => absurd rfl no) (fun no => absurd rfl no)
      dsimp only
      cases data : writeData f src size (size + 1) 0 0 0 d with
      | mk first d' =>
        rw [data] at kept
        have laid' := laid.kept kept
        cases first with
        | none => exact Or.inl ⟨rfl, laid'⟩
        | some first =>
          let w : Stored := ⟨name, s, first, size, mtime, shortened, told, fits, nonzero, small⟩
          exact Or.inr ⟨rfl, w, rfl, rfl, laid'.writeEntries w (kept.root.trans root) room⟩

end RPCortex.Fat12
