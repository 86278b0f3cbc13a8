import RPCortex.Fat12.Format

/-! What `f12_write` stores for a name, and what `dir_scan` makes of it: a name that 8.3 holds, or a
long name of ASCII characters, comes back as it was. -/

namespace RPCortex.Fat12

open Lib

/-- The slots of a file: the entries of its long name from the last one on, and its 8.3 entry. -/
def storedSlots (name : List UInt8) (s : ShortName) (first size mtime : Nat) : List (List UInt8) :=
  (List.range (fatEntriesFor name - 1)).map
    (fun i => lfnEntry name s.name (fatEntriesFor name - 1 - i) (i = 0)) ++
    [fatDirent s.name 0x20 first size mtime s.caseFlags]

/-- A name that `dir_scan` gives back: 8.3 holds it, or it is ASCII. -/
def Told (name : List UInt8) : Prop := fatNameFits83 name = true ∨ ∀ c ∈ name, c ≤ 0x7F

instance : DecidablePred Told := fun _ => inferInstanceAs (Decidable (_ ∨ _))

variable {name e : List UInt8} {s : ShortName} {first size mtime : Nat} {l : LongName}

/-! ### The 8.3 entry -/

theorem fatDirent_split (first size mtime : Nat) (attr flags : UInt8) {n : List UInt8}
    (h : n.length = 11) :
    ∃ front, fatDirent n attr first size mtime flags = front ++ leEncode 4 size ∧
      front.length = 28 ∧ ∃ rest, front = n ++ attr :: flags :: rest := by
  have shape : fatDirent n attr first size mtime flags = n ++ attr :: flags :: ([0] ++
      leEncode 2 (fatTimeEncode mtime).2 ++ leEncode 2 (fatTimeEncode mtime).1 ++
      leEncode 2 (fatTimeEncode mtime).1 ++ [0, 0] ++ leEncode 2 (fatTimeEncode mtime).2 ++
      leEncode 2 (fatTimeEncode mtime).1 ++ leEncode 2 first) ++ leEncode 4 size := by
    simp [fatDirent]
  exact ⟨_, shape, by simp [h], _, rfl⟩

theorem rd32_fatDirent {n : List UInt8} {attr flags : UInt8} (h : n.length = 11)
    (small : size < 2 ^ 32) : rd32 (fatDirent n attr first size mtime flags) 28 = size := by
  obtain ⟨front, split, len, -⟩ := fatDirent_split first size mtime attr flags h
  rw [rd32, split, ← len, List.drop_left, List.take_of_length_le (by simp), leDecode_leEncode]
  exact Nat.mod_eq_of_lt small

theorem attr_fatDirent {n : List UInt8} {attr flags : UInt8} (h : n.length = 11) :
    (fatDirent n attr first size mtime flags).getD 11 0 = attr := by
  obtain ⟨front, split, -, rest, hf⟩ := fatDirent_split first size mtime attr flags h
  rw [split, hf, List.append_assoc, List.getD_append_right _ _ _ _ h.le, h]
  rfl

theorem head_fatDirent {n : List UInt8} {attr flags : UInt8} (h : n.length = 11) :
    (fatDirent n attr first size mtime flags).getD 0 0 = n.getD 0 0 := by
  obtain ⟨front, split, -, rest, hf⟩ := fatDirent_split first size mtime attr flags h
  rw [split, hf, List.append_assoc, List.getD_append _ _ _ _ (by omega)]

/-- The printed form of a stored short name is the one that was meant. -/
theorem shortName_fatDirent {attr : UInt8} :
    shortName (fatDirent s.name attr first size mtime s.caseFlags) = s.shown := by
  obtain ⟨front, split, -, rest, hf⟩ := fatDirent_split first size mtime attr s.caseFlags s.length_name
  have len := s.length_name
  have bits : (fatDirent s.name attr first size mtime s.caseFlags).getD 12 0 = s.caseFlags := by
    rw [split, hf, List.append_assoc, List.getD_append_right _ _ _ _ (by omega), len]
    rfl
  have base : (fatDirent s.name attr first size mtime s.caseFlags).take 8 = s.name.take 8 := by
    rw [split, hf, List.append_assoc, List.take_append_of_le_length (by omega)]
  have ext : ((fatDirent s.name attr first size mtime s.caseFlags).drop 8).take 3 =
      (s.name.drop 8).take 3 := by
    rw [split, hf, List.append_assoc, List.drop_append_of_le_length (by omega),
      List.take_append_of_le_length (by rw [List.length_drop]; omega)]
  have eighth : (fatDirent s.name attr first size mtime s.caseFlags).getD 8 0 = s.name.getD 8 0 := by
    rw [split, hf, List.append_assoc, List.getD_append _ _ _ _ (by omega)]
  have bit (x : UInt8) : decide (x ≠ 0) = (x != 0) := by by_cases h : x = 0 <;> simp [h]
  rw [shortName]
  simp only [bits, base, ext, eighth, bit]
  rfl

/-! ### The entries of a long name -/

theorem lfnChar_lt (name : List UInt8) (idx : Nat) : lfnChar name idx < 2 ^ 16 := by
  unfold lfnChar
  split
  · have := (name.getD idx 0).toNat_lt
    omega
  · split <;> decide

theorem leDecode_pair {v : Nat} (h : v < 2 ^ 16) :
    leDecode [UInt8.ofNat v, UInt8.ofNat (v / 256)] = v :=
  (leDecode_leEncode 2 v).trans (Nat.mod_eq_of_lt h)

/-- The characters of an entry stand at their offsets. -/
theorem rd16_lfnEntry {name83 : List UInt8} {seq : Nat} {last : Bool} {k : Nat} (h : k < 13) :
    rd16 (lfnEntry name name83 seq last) (lfnOffsets.getD k 0) =
      lfnChar name ((seq - 1) * 13 + k) := by
  have small := lfnChar_lt name ((seq - 1) * 13 + k)
  rw [← leDecode_pair small]
  interval_cases k <;>
    simp [rd16, lfnEntry, lfnOffsets, lfnChars, List.range_succ, leEncode, Nat.add_assoc]

theorem attr_lfnEntry {name83 : List UInt8} {seq : Nat} {last : Bool} :
    (lfnEntry name name83 seq last).getD 11 0 = 0x0F := by
  simp [lfnEntry, lfnChars, List.range_succ, leEncode]

theorem length_lfnEntry {name83 : List UInt8} {seq : Nat} {last : Bool} :
    (lfnEntry name name83 seq last).length = 32 := by
  simp [lfnEntry, lfnChars, List.range_succ, leEncode]

/-- The first byte of an entry of a name that fits the buffer. -/
theorem head_lfnEntry (name name83 : List UInt8) {seq : Nat} (last : Bool) (pos : 0 < seq) (few : seq ≤ 5) :
    let head := (lfnEntry name name83 seq last).getD 0 0
    head ≠ 0 ∧ head ≠ 0xE5 ∧ (head &&& 0x40 ≠ 0 ↔ last = true) ∧ (head &&& 0x1F).toNat = seq := by
  simp only [lfnEntry, List.cons_append, List.nil_append, List.getD_cons_zero]
  interval_cases seq <;> cases last <;> decide

/-! ### Putting a long name together -/

/-- The characters of `name` from `start` on are in the buffer, and nothing else. -/
structure Gathered (name : List UInt8) (start : Nat) (l : LongName) : Prop where
  ok : l.ok = true
  length : l.name.length = 64
  chars : ∀ i, l.name.getD i 0 = if start ≤ i then name.getD i 0 else 0

/-- A long name that the buffer takes. -/
structure Ascii (name : List UInt8) : Prop where
  short : name.length ≤ 63
  chars : ∀ c ∈ name, c ≠ 0 ∧ c ≤ 0x7F

theorem lfnChar_inside (ascii : Ascii name) {idx : Nat} (h : idx < name.length) :
    lfnChar name idx = (name.getD idx 0).toNat ∧ lfnChar name idx ≠ 0 ∧ lfnChar name idx ≤ 0x7F := by
  have eq : lfnChar name idx = (name.getD idx 0).toNat := if_pos h
  have mem : name.getD idx 0 ∈ name := by
    rw [List.getD_eq_getElem _ _ h]
    exact List.getElem_mem h
  obtain ⟨nonzero, le⟩ := ascii.chars _ mem
  refine ⟨eq, ?_, ?_⟩
  · rw [eq]
    exact fun no => nonzero (UInt8.toNat_inj.mp no)
  · rw [eq]
    exact UInt8.le_iff_toNat_le.mp le

theorem gatherFrom_eq (ascii : Ascii name) (offsets : List Nat) (idx : Nat)
    (stored : ∀ k < offsets.length, rd16 e (offsets.getD k 0) = lfnChar name (idx + k))
    (ok : l.ok = true) (len : l.name.length = 64) :
    let r := gatherFrom e offsets idx l
    r.ok = true ∧ r.name.length = 64 ∧ ∀ i, r.name.getD i 0 =
      if idx ≤ i ∧ i < idx + offsets.length ∧ i < name.length then name.getD i 0
      else l.name.getD i 0 := by
  induction offsets generalizing idx l with
  | nil =>
    refine ⟨ok, len, fun i => ?_⟩
    rw [if_neg (by simp only [List.length_nil]; omega)]
    rfl
  | cons o offsets ih =>
    have here : rd16 e o = lfnChar name idx := stored 0 (by simp)
    have next (k : Nat) (hk : k < offsets.length) :
        rd16 e (offsets.getD k 0) = lfnChar name (idx + 1 + k) := by
      have := stored (k + 1) (by simpa using hk)
      rwa [List.getD_cons_succ, Nat.add_comm k 1, ← Nat.add_assoc] at this
    have short := ascii.short
    rw [gatherFrom]
    dsimp only
    by_cases inside : idx < name.length
    · obtain ⟨eq, nonzero, le⟩ := lfnChar_inside ascii inside
      rw [here, if_neg (by omega), if_neg (by unfold maxName; omega), if_neg (by omega)]
      obtain ⟨ok', len', chars⟩ := ih (idx + 1) (l := { l with name := l.name.set idx (.ofNat _) }) next ok
        (by simpa using len)
      refine ⟨ok', len', fun i => ?_⟩
      rw [chars i, List.length_cons]
      by_cases same : i = idx
      · subst same
        rw [if_neg (by omega), if_pos (by omega), eq, UInt8.ofNat_toNat,
          List.getD_eq_getElem _ _ (by rw [List.length_set]; omega), List.getElem_set_self]
      · have kept : (l.name.set idx (.ofNat (lfnChar name idx))).getD i 0 = l.name.getD i 0 := by
          simp [List.getD_eq_getElem?_getD, List.getElem?_set_ne (Ne.symm same)]
        rw [kept]
        by_cases inside' : idx + 1 ≤ i ∧ i < idx + 1 + offsets.length ∧ i < name.length
        · rw [if_pos inside', if_pos (by omega)]
        · rw [if_neg inside', if_neg (by omega)]
    · have blank : lfnChar name idx = 0xFFFF ∨ lfnChar name idx = 0 := by
        unfold lfnChar
        rw [if_neg inside]
        split
        · exact Or.inr rfl
        · exact Or.inl rfl
      rw [here, if_pos blank]
      obtain ⟨ok', len', chars⟩ := ih (idx + 1) next ok len
      refine ⟨ok', len', fun i => ?_⟩
      rw [chars i, if_neg (by omega), if_neg (by rw [List.length_cons]; omega)]

/-- An entry puts its characters in front of those that are there. -/
theorem lfnGather_gathered (ascii : Ascii name) {name83 : List UInt8} {seq : Nat} {last : Bool}
    (pos : 0 < seq) (few : seq ≤ 5) (h : Gathered name (seq * 13) l) :
    Gathered name ((seq - 1) * 13) (lfnGather (lfnEntry name name83 seq last) l) := by
  obtain ⟨-, -, -, number⟩ := head_lfnEntry name name83 last pos few
  rw [lfnGather]
  simp only [number, if_neg (by omega : ¬seq = 0)]
  obtain ⟨ok, len, chars⟩ := gatherFrom_eq ascii lfnOffsets ((seq - 1) * 13)
    (fun k hk => rd16_lfnEntry hk) h.ok h.length
  refine ⟨ok, len, fun i => ?_⟩
  have thirteen : lfnOffsets.length = 13 := rfl
  rw [chars i, h.chars i, thirteen]
  by_cases behind : seq * 13 ≤ i
  · rw [if_neg (by omega), if_pos behind, if_pos (by omega)]
  · rw [if_neg behind]
    by_cases front : (seq - 1) * 13 ≤ i
    · rw [if_pos front]
      split
      · rfl
      · rw [List.getD_eq_default _ _ (by omega)]
    · rw [if_neg front, if_neg (by omega)]

/-- The whole name. -/
theorem Gathered.cstr_eq (ascii : Ascii name) (h : Gathered name 0 l) : cstr l.name = name := by
  have short := ascii.short
  have whole : l.name = name ++ List.replicate (64 - name.length) 0 := by
    refine List.ext_getElem ?_ fun i hi hi' => ?_
    · rw [h.length, List.length_append, List.length_replicate]
      omega
    · have char := h.chars i
      rw [if_pos (Nat.zero_le _), List.getD_eq_getElem _ _ hi] at char
      rw [char, List.getElem_append]
      split
      · rw [List.getD_eq_getElem _ _ ‹_›]
      · rw [List.getElem_replicate, List.getD_eq_default _ _ (by omega)]
  obtain ⟨pad, hp⟩ : ∃ pad, 64 - name.length = pad + 1 := ⟨63 - name.length, by omega⟩
  rw [whole, hp, cstr, List.replicate_succ, List.takeWhile_append_of_pos]
  · simp
  · intro c hc
    simpa using (ascii.chars c hc).1

/-! ### Scanning them -/

variable {rest : List (List UInt8)} {slot : Nat}

/-- A scan over one entry of a long name. -/
theorem scanSlots_lfnEntry (rest : List (List UInt8)) (slot : Nat) (l : LongName)
    (name83 : List UInt8) (last : Bool) (ascii : Ascii name) {seq : Nat} (pos : 0 < seq) (few : seq ≤ 5)
    (h : Gathered name (seq * 13) (if last then ⟨List.replicate maxName 0, true⟩ else l)) :
    ∃ l', Gathered name ((seq - 1) * 13) l' ∧
      scanSlots (lfnEntry name name83 seq last :: rest) slot l = scanSlots rest (slot + 1) l' := by
  obtain ⟨used, live, first, -⟩ := head_lfnEntry name name83 last pos few
  refine ⟨lfnGather (lfnEntry name name83 seq last) _, lfnGather_gathered ascii pos few h, ?_⟩
  rw [scanSlots]
  simp only [attr_lfnEntry, if_neg used, if_neg live, first]
  rw [if_pos (by decide), if_pos h.ok]

theorem scanSlots_lfnEntries (rest : List (List UInt8)) (slot : Nat) (name83 : List UInt8)
    (ascii : Ascii name) {n : Nat} (few : n ≤ 5) (h : Gathered name (n * 13) l) : ∃ l', Gathered name 0 l' ∧
      scanSlots ((List.range n).map (fun i => lfnEntry name name83 (n - i) false) ++ rest) slot l =
        scanSlots rest (slot + n) l' := by
  induction n generalizing l slot with
  | zero => exact ⟨l, by simpa using h, rfl⟩
  | succ n ih =>
    obtain ⟨l₁, gathered, step⟩ := scanSlots_lfnEntry
      ((List.range n).map (fun i => lfnEntry name name83 (n - i) false) ++ rest) slot l name83 false
      ascii (Nat.succ_pos n) few h
    obtain ⟨l₂, whole, run⟩ := ih (slot + 1) (by omega) gathered
    refine ⟨l₂, whole, ?_⟩
    have shape : (List.range (n + 1)).map (fun i => lfnEntry name name83 (n + 1 - i) false) =
        lfnEntry name name83 (n + 1) false ::
          (List.range n).map (fun i => lfnEntry name name83 (n - i) false) := by
      rw [List.range_succ_eq_map, List.map_cons, List.map_map]
      refine congrArg _ (List.map_congr_left fun i _ => ?_)
      simp
    rw [shape, List.cons_append, step, run, Nat.add_assoc, Nat.add_comm 1]

theorem fits_iff (h : fatShortname name = some s) : fatNameFits83 name = true ↔ s.shown = name := by
  have nonempty : name ≠ [] := by
    rintro rfl
    cases h
  simp [fatNameFits83, nonempty, h]

/-- A scan over the 8.3 entry of a file. -/
theorem scanSlots_dirent (rest : List (List UInt8)) (slot first mtime : Nat)
    (h : fatShortname name = some s) (small : size < 2 ^ 32)
    (named : (if l.ok && l.name.getD 0 0 ≠ 0 then cstr l.name else s.shown) = name) :
    ∃ x : Found, scanSlots (fatDirent s.name 0x20 first size mtime s.caseFlags :: rest) slot l =
        x :: scanSlots rest (slot + 1) noName ∧
      (x.entry.name = name ∧ x.entry.size = size ∧ x.entry.isDir = false ∧ x.short = s.shown) ∧
      x.entry.firstCluster = rd16 (fatDirent s.name 0x20 first size mtime s.caseFlags) 26 := by
  obtain ⟨used, live⟩ := fatShortname_head h
  have len := s.length_name
  let e := fatDirent s.name 0x20 first size mtime s.caseFlags
  have sized : rd32 e 28 = size := rd32_fatDirent len small
  have shown : shortName e = s.shown := shortName_fatDirent
  refine ⟨⟨entryOf e l, shortName e, slot⟩, ?_, ⟨?_, sized, ?_, shown⟩, rfl⟩
  · rw [scanSlots]
    simp only [head_fatDirent len, attr_fatDirent len, if_neg used, if_neg live]
    rw [if_neg (by decide), if_neg (by decide)]
  · rw [entryOf, shortName_fatDirent]
    exact named
  · show decide (e.getD 11 0 &&& 0x10 ≠ 0) = false
    rw [show e.getD 11 0 = 0x20 from attr_fatDirent len]
    decide

/-- What is stored for a name is found under that name, behind slots that are none of a long name. -/
theorem scanSlots_found (rest : List (List UInt8)) (slot first mtime : Nat) (fresh : l.ok = false)
    (h : fatShortname name = some s) (small : size < 2 ^ 32) (told : Told name) (short : name.length ≤ 63) (nonzero : 0 ∉ name) :
    ∃ x : Found, scanSlots (storedSlots name s first size mtime ++ rest) slot l =
        x :: scanSlots rest (slot + fatEntriesFor name) noName ∧
      (x.entry.name = name ∧ x.entry.size = size ∧ x.entry.isDir = false ∧ x.short = s.shown) ∧
      x.entry.firstCluster = rd16 (fatDirent s.name 0x20 first size mtime s.caseFlags) 26 := by
  by_cases fits : fatNameFits83 name = true
  · have one : fatEntriesFor name = 1 := if_pos fits
    rw [storedSlots, one]
    refine scanSlots_dirent rest slot first mtime h small ?_
    rw [fresh]
    exact (fits_iff h).mp fits
  · have ascii : Ascii name :=
      ⟨short, fun c hc => ⟨fun no => nonzero (no ▸ hc), told.resolve_left fits c hc⟩⟩
    have nonempty : name ≠ [] := by
      rintro rfl
      cases h
    have pos := List.length_pos_iff.mpr nonempty
    obtain ⟨n, hn⟩ : ∃ n, (name.length + 12) / 13 = n + 1 := ⟨(name.length + 12) / 13 - 1, by omega⟩
    have entries : fatEntriesFor name = n + 2 := by
      rw [fatEntriesFor, if_neg fits]
      show 1 + (name.length + 12) / 13 = n + 2
      omega
    have shape : storedSlots name s first size mtime ++ rest =
        lfnEntry name s.name (n + 1) true ::
          ((List.range n).map (fun i => lfnEntry name s.name (n - i) false) ++
            (fatDirent s.name 0x20 first size mtime s.caseFlags :: rest)) := by
      rw [storedSlots, entries, Nat.add_sub_cancel (m := 1) (n := n + 1), List.range_succ_eq_map,
        List.map_cons, List.map_map, List.append_assoc, List.cons_append]
      refine congrArg₂ List.cons rfl (congrArg₂ HAppend.hAppend (List.map_congr_left fun i _ => ?_) rfl)
      simp
    have empty : Gathered name ((n + 1) * 13) ⟨List.replicate maxName 0, true⟩ := by
      refine ⟨rfl, List.length_replicate, fun i => ?_⟩
      have blank : (List.replicate maxName (0 : UInt8)).getD i 0 = 0 := by
        rw [List.getD_eq_getElem?_getD, List.getElem?_replicate]
        split <;> rfl
      rw [blank]
      split
      · rw [List.getD_eq_default _ _ (by omega)]
      · rfl
    obtain ⟨l₁, gathered, step⟩ := scanSlots_lfnEntry
      ((List.range n).map (fun i => lfnEntry name s.name (n - i) false) ++
        (fatDirent s.name 0x20 first size mtime s.caseFlags :: rest))
      slot l s.name true ascii (Nat.succ_pos n) (by omega) empty
    obtain ⟨l₂, whole, run⟩ := scanSlots_lfnEntries
      (fatDirent s.name 0x20 first size mtime s.caseFlags :: rest) (slot + 1) s.name ascii (n := n)
      (by omega) gathered
    have named : (if l₂.ok && l₂.name.getD 0 0 ≠ 0 then cstr l₂.name else s.shown) = name := by
      have mem : name.getD 0 0 ∈ name := by
        rw [List.getD_eq_getElem _ _ pos]
        exact List.getElem_mem pos
      have head : l₂.name.getD 0 0 ≠ 0 := by
        rw [whole.chars 0, if_pos le_rfl]
        exact (ascii.chars _ mem).1
      rw [whole.ok, if_pos (by simpa using head), whole.cstr_eq ascii]
    obtain ⟨x, last, facts⟩ := scanSlots_dirent rest (slot + 1 + n) first mtime h small named
    refine ⟨x, ?_, facts⟩
    have next : slot + 1 + n + 1 = slot + (n + 2) := by omega
    rw [shape, step, run, last, entries, next]

theorem scanSlots_stored (rest : List (List UInt8)) (slot first mtime : Nat)
    (h : fatShortname name = some s) (small : size < 2 ^ 32) (told : Told name) (short : name.length ≤ 63) (nonzero : 0 ∉ name) :
    ∃ x : Found, scanSlots (storedSlots name s first size mtime ++ rest) slot noName =
        x :: scanSlots rest (slot + fatEntriesFor name) noName ∧
      x.entry.name = name ∧ x.entry.size = size ∧ x.entry.isDir = false ∧ x.short = s.shown := by
  obtain ⟨x, scanned, seen, -⟩ := scanSlots_found rest slot first mtime (l := noName) rfl h small told short
    nonzero
  exact ⟨x, scanned, seen⟩

end RPCortex.Fat12
