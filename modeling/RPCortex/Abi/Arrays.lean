import RPCortex.Abi.Calls

/-! What the calls with an array touch.  Each check covers the bytes that its call touches, but one:
the scan multiplies the number of records by their size in 32 bits.  `calls_covered_iff` says when
every access of a call lies in a range that a check of the call accepted. -/

namespace RPCortex.Abi

open Lib

/-- A byte of the array at `p` that a range in `l` allows to be written. -/
def Writable (l : List Range) (p d : UInt32) : Prop := ∃ r ∈ l, r.Covers (.arg p) .write (p + d)

/-- The first `len` bytes at `p` were accepted for writing. -/
def Holds (p len : UInt32) (s : State) : Prop := ⟨.arg p, p, len, .write⟩ ∈ s.accepted

section Stores

variable {s : State} {p d len : UInt32} {b : UInt8} {bytes : List UInt8} {l : List Range}

theorem add_sub_self (p d : UInt32) : p + d - p = d := by
  rw [UInt32.add_comm, UInt32.add_sub_cancel]

theorem Holds.writable (h : Holds p len s) (room : d < len) : Writable s.accepted p d :=
  ⟨_, h, rfl, by rwa [add_sub_self], fun _ => rfl⟩

theorem writable_singleton : Writable [⟨.arg p, p, len, .write⟩] p d ↔ d < len := by
  simp [Writable, Range.Covers]

theorem ofNat_succ (d : UInt32) (k : Nat) :
    d + 1 + UInt32.ofNat k = d + UInt32.ofNat (k + 1) := by
  rw [UInt32.ofNat_add, UInt32.add_assoc, UInt32.add_comm 1]
  rfl

/-- Stores are covered byte by byte, and accept nothing. -/
theorem storeAll_iff {R : List Range → Prop} :
    (storeAll p d bytes).wp perform Covered (fun _ t => R t.accepted) s ↔
      (∀ k < bytes.length, Writable s.accepted p (d + UInt32.ofNat k)) ∧ R s.accepted := by
  induction bytes generalizing d s with
  | nil => simp [storeAll, Prog.wp_pure]
  | cons b rest ih =>
    have step : (storeAll p d (b :: rest)).wp perform Covered (fun _ t => R t.accepted) s ↔
        Writable s.accepted p d ∧
          ((∀ k < rest.length, Writable s.accepted p (d + 1 + UInt32.ofNat k)) ∧ R s.accepted) := by
      rw [storeAll, Prog.wp_call_bind]
      simp only [perform_store, forall_const, ih]
      exact Iff.rfl
    rw [step, ← and_assoc]
    refine and_congr_left fun _ => ⟨fun ⟨first, others⟩ k hk => ?_, fun h => ⟨?_, fun k hk => ?_⟩⟩
    · cases k with
      | zero => simpa using first
      | succ k => exact ofNat_succ d k ▸ others k (by simpa using hk)
    · simpa using h 0 (by simp)
    · exact ofNat_succ d k ▸ h (k + 1) (by simpa using hk)

/-- Stores into the accepted bytes of an array. -/
theorem storeAll_wp (h : Holds p len s) (room : d.toNat + bytes.length ≤ len.toNat) :
    (storeAll p d bytes).wp perform Covered (fun _ => Holds p len) s := by
  refine (storeAll_iff (R := fun l => (⟨.arg p, p, len, .write⟩ : Range) ∈ l)).mpr ⟨?_, h⟩
  intro k hk
  refine h.writable ?_
  have bound := len.toNat_lt
  rw [UInt32.lt_iff_toNat_lt, UInt32.toNat_add, UInt32.toNat_ofNat']
  omega

/-- Stores before a program whose accesses depend on the accepted ranges only. -/
theorem storeAll_then {α : Type} {R : List Range → Prop} {Q : α → State → Prop}
    {next : Unit → Act α} (h : ∀ t, (next ()).wp perform Covered Q t ↔ R t.accepted) :
    (storeAll p d bytes >>= next).wp perform Covered Q s ↔
      (∀ k < bytes.length, Writable s.accepted p (d + UInt32.ofNat k)) ∧ R s.accepted := by
  have same : (fun u => (next u).wp perform Covered Q) = fun _ t => R t.accepted :=
    funext fun _ => funext fun t => propext (h t)
  rw [Prog.wp_bind, same, storeAll_iff]

/-- The fields of a record before a program whose accesses depend on the accepted ranges only. -/
theorem storeFields_then {α : Type} {R : List Range → Prop} {Q : α → State → Prop}
    {fields : List (UInt32 × List UInt8)} {next : Unit → Act α}
    (h : ∀ t, (next ()).wp perform Covered Q t ↔ R t.accepted) :
    (storeFields p fields >>= next).wp perform Covered Q s ↔
      (∀ field ∈ fields, ∀ k < field.2.length,
        Writable s.accepted p (field.1 + UInt32.ofNat k)) ∧ R s.accepted := by
  induction fields generalizing s with
  | nil => exact (h s).trans (by simp)
  | cons field rest ih =>
    rw [storeFields, Prog.bind_assoc, storeAll_then (R := fun l => (∀ field ∈ rest, ∀ k < field.2.length,
      Writable l p (field.1 + UInt32.ofNat k)) ∧ R l) fun t => ih, List.forall_mem_cons, and_assoc]

/-- Stores of the fields of a record into the accepted bytes of an array. -/
theorem storeFields_wp {fields : List (UInt32 × List UInt8)} (h : Holds p len s)
    (room : ∀ field ∈ fields, field.1.toNat + field.2.length ≤ len.toNat) :
    (storeFields p fields).wp perform Covered (fun _ => Holds p len) s := by
  induction fields generalizing s with
  | nil => exact h
  | cons field rest ih =>
    rw [List.forall_mem_cons] at room
    exact (storeAll_wp h room.1).bind fun _ _ ht => ih ht room.2

theorem length_snprintf_le (bytes : List UInt8) {size : Nat} (pos : 0 < size) : (snprintf size bytes).length ≤ size := by
  simp [snprintf]
  omega

theorem snprintf_pos {size : Nat} : 0 < (snprintf size bytes).length := by simp [snprintf]

@[simp] theorem length_wordBytes (v : UInt32) : (wordBytes v).length = 4 := length_leEncode _ _

/-- A check of a range that is to be covered afterwards. -/
theorem wp_okRange_true {mem : Option TaskAppMem} {r : Range} {Q : Bool → State → Prop}
    (no : Q false s)
    (yes : ptrOk mem r.base r.len r.acc = true →
      Q true { s with accepted := r :: s.accepted }) :
    (okRange mem r).wp perform Covered Q s := by
  rw [wp_okRange trivial]
  split
  · exact yes ‹_›
  · exact no

end Stores

/-! ### The scan -/

section Scan

variable {mem : TaskAppMem} {s : State} {out max len : UInt32} {i : Nat} {e : ScanEntry}
  {entries : List ScanEntry} {scan : Option (List ScanEntry)} {bytes : UInt32 → UInt8}

/-- The records are covered field by field. -/
theorem storeAps_iff :
    (storeAps out i entries).wp perform Covered (fun _ _ => True) s ↔
      ∀ j (hj : j < entries.length), ∀ field ∈ apFields (i + j) entries[j],
        ∀ k < field.2.length, Writable s.accepted out (field.1 + UInt32.ofNat k) := by
  induction entries generalizing i s with
  | nil => simp [storeAps, Prog.wp_pure]
  | cons e rest ih =>
    rw [storeAps, storeFields_then (R := fun l => ∀ j (hj : j < rest.length),
      ∀ field ∈ apFields (i + 1 + j) rest[j], ∀ k < field.2.length,
        Writable l out (field.1 + UInt32.ofNat k)) fun t => ih]
    constructor
    · rintro ⟨first, others⟩ j hj
      cases j with
      | zero => simpa using first
      | succ j =>
        have := others j (by simpa using hj)
        rwa [show i + 1 + j = i + (j + 1) by omega] at this
    · intro h
      refine ⟨h 0 (by simp), fun j hj => ?_⟩
      have := h (j + 1) (by simpa using hj)
      rwa [show i + (j + 1) = i + 1 + j by omega] at this

theorem mem_apFields {field : UInt32 × List UInt8} (h : field ∈ apFields i e) :
    ∃ d, field.1 = UInt32.ofNat (48 * i + d) ∧ d + field.2.length ≤ 48 := by
  simp only [apFields, List.mem_cons, List.not_mem_nil, or_false] at h
  rcases h with rfl | rfl | rfl | rfl
  · have short := length_snprintf_le e.ssid (show 0 < 33 by decide)
    exact ⟨0, by simp, by simp only; omega⟩
  · exact ⟨36, by simp, by simp⟩
  · exact ⟨40, by simp, by simp⟩
  · exact ⟨44, by simp, by simp⟩

theorem name_mem_apFields (i : Nat) (e : ScanEntry) :
    (UInt32.ofNat (48 * i), snprintf 33 e.ssid) ∈ apFields i e := by simp [apFields]

theorem secured_mem_apFields (i : Nat) (e : ScanEntry) :
    (UInt32.ofNat (48 * i + 44), wordBytes (if e.auth ≠ 0 then 1 else 0)) ∈ apFields i e := by
  simp [apFields]

theorem toNat_offset (a k : Nat) :
    (UInt32.ofNat a + UInt32.ofNat k).toNat = (a + k) % 2 ^ 32 := by
  simp [UInt32.toNat_add]

/-- The records are inside the accepted bytes exactly when there is room for all of them. -/
theorem fields_inside_iff :
    (∀ j (hj : j < entries.length), ∀ field ∈ apFields j entries[j],
      ∀ k < field.2.length, field.1 + UInt32.ofNat k < max * sizeofAp) ↔
      48 * entries.length ≤ (max * sizeofAp).toNat := by
  have need : (max * sizeofAp).toNat = max.toNat * 48 % 2 ^ 32 := UInt32.toNat_mul _ _
  generalize max * sizeofAp = len at *
  have sixteens : len.toNat % 16 = 0 := by omega
  have bound := len.toNat_lt
  clear need
  simp only [UInt32.lt_iff_toNat_lt]
  constructor
  · intro h
    by_contra short
    -- the record in which the accepted bytes end, and the part of it that is behind them
    obtain ⟨j, hj⟩ : ∃ j, len.toNat / 48 = j := ⟨_, rfl⟩
    have inside : j < entries.length := by omega
    by_cases edge : len.toNat % 48 = 0
    · have first := h j inside _ (name_mem_apFields j entries[j]) 0 snprintf_pos
      have offset := toNat_offset (48 * j) 0
      dsimp only at first
      omega
    · have last := h j inside _ (secured_mem_apFields j entries[j]) 3 (by simp)
      have offset := toNat_offset (48 * j + 44) 3
      dsimp only at last
      omega
  · intro room j hj field hfield k hk
    obtain ⟨d, start, fits⟩ := mem_apFields hfield
    rw [start, toNat_offset]
    omega

/-- The scan is covered exactly when there is room for the records that it writes. -/
theorem fwNetScan_iff :
    (fwNetScan mem scan out max).wp perform Covered (fun _ _ => True) ⟨bytes, []⟩ ↔
      (ptrOk (some mem) out (max * sizeofAp) .write = true → out ≠ 0 → ∀ entries,
        scan = some entries → 48 * min entries.length max.toNat ≤ (max * sizeofAp).toNat) := by
  rw [fwNetScan, Prog.wp_bind, wp_okRange trivial]
  by_cases ok : ptrOk (some mem) out (max * sizeofAp) .write = true
  swap
  · rw [if_neg ok]
    exact ⟨fun _ yes => absurd yes ok, fun _ => trivial⟩
  rw [if_pos ok, if_pos rfl]
  unfold netPkgScan
  by_cases null : out = 0 ∨ max = 0
  · rw [if_pos null]
    refine ⟨fun _ _ some_ entries _ => ?_, fun _ => trivial⟩
    obtain rfl := null.resolve_left some_
    simp
  rw [if_neg null]
  cases scan with
  | none => exact ⟨fun _ _ _ entries no => (by cases no), fun _ => trivial⟩
  | some found =>
    have records : (do
          storeAps out 0 (found.take max.toNat)
          pure (Int32.ofNat (min found.length max.toNat)) : Act Int32).wp perform Covered
            (fun _ _ => True) { bytes, accepted := [⟨.arg out, out, max * sizeofAp, .write⟩] } ↔
        48 * min found.length max.toNat ≤ (max * sizeofAp).toNat := by
      have count : (found.take max.toNat).length = min found.length max.toNat := by simp [min_comm]
      rw [Prog.wp_bind, ← count, ← fields_inside_iff]
      show (storeAps out 0 (found.take max.toNat)).wp perform Covered (fun _ _ => True) _ ↔ _
      rw [storeAps_iff]
      simp only [writable_singleton, Nat.zero_add]
    refine records.trans ⟨fun room _ _ entries same => ?_, fun h => ?_⟩
    · cases same
      exact room
    · exact h ok (fun no => null (.inl no)) found rfl

end Scan

/-! ### The other calls -/

section Others

variable {mem : TaskAppMem} {s : State} {out cap len p d : UInt32} {bytes : UInt32 → UInt8}

theorem Holds.store {b : UInt8} (h : Holds p len s) (room : d < len) :
    Covered s (.store (.arg p) (p + d) b) := h.writable room

theorem Holds.load (h : Holds p len s) (room : d < len) : Covered s (.load (.arg p) (p + d)) :=
  ⟨_, h, rfl, by rwa [add_sub_self], fun no => by cases no⟩

theorem fwPioLoad_wp {pio : Pio} {h : Int32} {prog wrapTarget wrap : UInt32} :
    (fwPioLoad mem pio h prog len wrapTarget wrap).wp perform Covered (fun _ _ => True) s := by
  refine Prog.wp_ite (fun _ => trivial) fun valid => ?_
  have short : len.toNat ≤ 32 := by
    simp only [not_or, UInt32.lt_iff_toNat_lt, not_lt] at valid
    exact valid.2.2.2
  refine Prog.wp_bind.mpr (wp_okRange_true trivial fun _ => ?_)
  rw [if_pos rfl]
  refine Prog.wp_ite (fun _ => trivial) fun _ => Prog.wp_ite (fun _ => trivial) fun _ => ?_
  have size : (len * 2).toNat = len.toNat * 2 := by
    have : (len * 2).toNat = len.toNat * 2 % 2 ^ 32 := UInt32.toNat_mul _ _
    omega
  have inside {k : Nat} (hk : k < len.toNat * 2) : UInt32.ofNat k < len * 2 := by
    rw [UInt32.lt_iff_toNat_lt, size, UInt32.toNat_ofNat']
    omega
  refine (Prog.wp_forM (I := fun t => (⟨.arg prog, prog, len * 2, .read⟩ : Range) ∈ t.accepted)
    (fun i hi t ht => ?_) (List.mem_cons_self)).bind fun _ _ _ => trivial
  have hi := pio.reads_lt len i hi
  have covered {k : Nat} (hk : k < len.toNat * 2) :
      Covered t (.load (.arg prog) (prog + UInt32.ofNat k)) :=
    ⟨_, ht, rfl, by rw [add_sub_self]; exact inside hk, fun no => by cases no⟩
  refine Prog.wp_call_bind.mpr ⟨covered (by omega), fun _ => ?_⟩
  exact Prog.wp_call_bind.mpr ⟨covered (by omega), fun _ => ht⟩

theorem rootFields_room {d : UInt32} {label path : List UInt8} {kind present : UInt8}
    {totalKb freeKb : UInt32} (small : d.toNat + 52 ≤ len.toNat) :
    ∀ field ∈ rootFields d label path kind present totalKb freeKb,
      field.1.toNat + field.2.length ≤ len.toNat := by
  have label_ := length_snprintf_le label (show 0 < 16 by decide)
  have path_ := length_snprintf_le path (show 0 < 24 by decide)
  have bound := len.toNat_lt
  have at_ (k : Nat) (hk : k < 52) : (d + UInt32.ofNat k).toNat = d.toNat + k := by
    rw [UInt32.toNat_add, UInt32.toNat_ofNat']
    omega
  have path_at : (d + 16).toNat = d.toNat + 16 := at_ 16 (by decide)
  have kind_at : (d + 40).toNat = d.toNat + 40 := at_ 40 (by decide)
  have total_at : (d + 44).toNat = d.toNat + 44 := at_ 44 (by decide)
  have free_at : (d + 48).toNat = d.toNat + 48 := at_ 48 (by decide)
  intro field hfield
  simp only [rootFields, List.mem_cons, List.not_mem_nil, or_false] at hfield
  rcases hfield with rfl | rfl | rfl | rfl | rfl
  · simp only
    omega
  · simp only
    omega
  · simp only [List.length_cons, List.length_nil]
    omega
  · simp only [length_wordBytes]
    omega
  · simp only [length_wordBytes]
    omega

theorem fwStorageRoots_wp {total free : UInt32} {sd : Option SdInfo} {max : Int32} :
    (fwStorageRoots mem total free sd out max).wp perform Covered (fun _ _ => True) s := by
  refine Prog.wp_ite (fun _ => trivial) fun _ => ?_
  refine Prog.wp_bind.mpr (wp_okRange_true trivial fun _ => ?_)
  generalize want : (if max < 2 then (1 : UInt32) else 2) = n
  have size : (sizeofRoot * n).toNat = 52 ∧ n = 1 ∨ (sizeofRoot * n).toNat = 104 ∧ n = 2 := by
    split at want
    · subst want
      exact .inl ⟨rfl, rfl⟩
    · subst want
      exact .inr ⟨rfl, rfl⟩
  have start : Holds out (sizeofRoot * n)
      { s with accepted := ⟨.arg out, out, sizeofRoot * n, .write⟩ :: s.accepted } :=
    List.mem_cons_self
  rw [if_pos rfl]
  refine (storeAll_wp start (by simp)).bind fun _ t ht => ?_
  refine (storeFields_wp ht (rootFields_room ?_)).bind fun _ t ht => ?_
  · show 0 + 52 ≤ _
    omega
  cases sd with
  | none => trivial
  | some sd =>
    refine Prog.wp_ite (fun card => ?_) fun _ => trivial
    refine (storeFields_wp ht (rootFields_room ?_)).bind fun _ _ _ => trivial
    show 52 + 52 ≤ _
    have two := card.1
    subst two
    exact le_refl 104

theorem lineLoop_wp {cap n : Int32} {inputs : List Input} (hn : 0 ≤ n.toInt)
    (room : n.toInt < cap.toInt) (h : Holds p cap.toUInt32 s) :
    (lineLoop p cap n inputs).wp perform Covered (fun _ _ => True) s := by
  induction inputs generalizing n s with
  | nil => trivial
  | cons input rest ih =>
    have covered {b : UInt8} {t : State} (ht : Holds p cap.toUInt32 t) :
        Covered t (.store (.arg p) (p + n.toUInt32) b) := by
      refine ht.store ?_
      have low := toNat_toUInt32 hn
      have high := toNat_toUInt32 (a := cap) (by omega)
      rw [UInt32.lt_iff_toNat_lt]
      omega
    have top := cap.toInt_lt
    cases input with
    | stopped => trivial
    | interrupted => trivial
    | timeout => exact ih hn room h
    | char c =>
      refine Prog.wp_ite (fun _ => trivial) fun _ => Prog.wp_ite (fun _ => ?_) fun _ => ?_
      · exact Prog.wp_call_bind.mpr ⟨covered h, fun _ => trivial⟩
      refine Prog.wp_ite (fun _ => ?_) fun _ => Prog.wp_ite (fun more => ?_) fun _ => ih hn room h
      · -- a backspace takes one character back
        by_cases zero : n = 0
        · rw [if_neg (by simpa using zero)]
          exact ih hn room h
        · have one : n.toInt ≠ 0 := fun same => zero (Int32.toInt_inj.mp same)
          have back : (n - 1).toInt = n.toInt - 1 := by
            have sub : (n - 1).toInt = (n.toInt - 1).bmod (2 ^ 32) := Int32.toInt_sub _ _
            rw [sub, Int.bmod_eq_of_le (by omega) (by omega)]
          rw [if_pos (by simpa using zero)]
          exact ih (by omega) (by omega) h
      · have last : (cap - 1).toInt = cap.toInt - 1 := by
          have sub : (cap - 1).toInt = (cap.toInt - 1).bmod (2 ^ 32) := Int32.toInt_sub _ _
          rw [sub, Int.bmod_eq_of_le (by omega) (by omega)]
        have next : (n + 1).toInt = n.toInt + 1 := by
          have add : (n + 1).toInt = (n.toInt + 1).bmod (2 ^ 32) := Int32.toInt_add _ _
          rw [add, Int.bmod_eq_of_le (by omega) (by omega)]
        rw [Int32.lt_iff_toInt_lt] at more
        exact Prog.wp_call_bind.mpr ⟨covered h, fun _ => ih (by omega) (by omega) h⟩

theorem fwLineRead_wp {console : Bool} {inputs : List Input} {cap : Int32} :
    (fwLineRead mem console inputs p cap).wp perform Covered (fun _ _ => True) s := by
  refine Prog.wp_bind.mpr (wp_okRange_true trivial fun _ => ?_)
  rw [if_pos rfl]
  refine Prog.wp_ite (fun _ => trivial) fun room => Prog.wp_ite (fun _ => trivial) fun _ => ?_
  have positive : ¬cap.toInt < 1 := fun no => room (Int32.lt_iff_toInt_lt.mpr no)
  have zero : (0 : Int32).toInt = 0 := rfl
  exact lineLoop_wp (by omega) (by omega) (List.mem_cons_self)

end Others

end RPCortex.Abi
