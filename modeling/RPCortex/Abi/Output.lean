import RPCortex.Abi.Arrays

/-! The calls that hand out what a command printed.  The capture keeps one byte for the terminator,
so its length stays below the capacity; the line of a command is read up to the terminator that the
check found.  `calls_covered_iff` puts the calls together. -/

namespace RPCortex.Abi

open Lib

section Capture

variable {s : State} {out cap : UInt32} {st : Captured} {source : Nat → Act UInt8} {n i : Nat}

/-- Reading byte `i` of what is appended is covered, for `n` bytes. -/
def Reads (out cap : UInt32) (source : Nat → Act UInt8) (n : Nat) : Prop :=
  ∀ i < n, ∀ s, Holds out cap s → (source i).wp perform Covered (fun _ => Holds out cap) s

theorem reads_fromBytes (data : List UInt8) : Reads out cap (fromBytes data) n :=
  fun _ _ _ h => h

/-- The capture is inside the buffer. -/
def Captured.Fits (cap : UInt32) (st : Captured) : Prop := st.len.toNat < cap.toNat

theorem capLoop_wp (reads : Reads out cap source (i + n)) (fits : st.Fits cap)
    (h : Holds out cap s) :
    (capLoop out cap source n i st).wp perform Covered
      (fun st' t => st'.Fits cap ∧ Holds out cap t) s := by
  induction n generalizing i s st with
  | zero => exact ⟨fits, h⟩
  | succ n ih =>
    have rest : Reads out cap source (i + 1 + n) := by rwa [show i + 1 + n = i + (n + 1) by omega]
    refine (reads i (by omega) s h).bind fun c t ht => ?_
    refine Prog.wp_ite (fun _ => ih rest fits ht) fun _ => ?_
    refine Prog.wp_ite (fun _ => ih rest fits ht) fun _ => ?_
    refine Prog.wp_ite (fun _ => ih rest fits ht) fun _ => ?_
    refine Prog.wp_ite (fun _ => ⟨fits, ht⟩) fun room => ?_
    refine Prog.wp_call_bind.mpr ⟨ht.store (UInt32.lt_iff_toNat_lt.mpr fits), fun _ => ?_⟩
    refine ih rest ?_ ht
    have bound := cap.toNat_lt
    have one : (st.len + 1).toNat = (st.len.toNat + 1) % 2 ^ 32 := UInt32.toNat_add _ _
    rw [UInt32.le_iff_toNat_le, one] at room
    show (st.len + 1).toNat < cap.toNat
    have := fits
    unfold Captured.Fits at this
    omega

theorem capAppend_wp (reads : Reads out cap source n) (fits : st.Fits cap) (h : Holds out cap s) :
    (capAppend out cap source n st).wp perform Covered
      (fun st' t => st'.Fits cap ∧ Holds out cap t) s := by
  have all : Reads out cap source (0 + n) := by rwa [Nat.zero_add]
  refine (capLoop_wp all fits h).bind fun st' t ⟨fits', ht⟩ => ?_
  exact Prog.wp_call_bind.mpr
    ⟨ht.store (UInt32.lt_iff_toNat_lt.mpr fits'), fun _ => ⟨fits', ht⟩⟩

theorem outMulti_wp {text : List UInt8} (fits : st.Fits cap) (h : Holds out cap s) :
    (outMulti out cap text st).wp perform Covered
      (fun st' t => st'.Fits cap ∧ Holds out cap t) s := by
  have bound := cap.toNat_lt
  have start : st.len.toNat < cap.toNat := fits
  have room : (cap - 1 - st.len).toNat = cap.toNat - 1 - st.len.toNat := by
    have one : (1 : UInt32).toNat = 1 := rfl
    rw [UInt32.toNat_sub_of_le _ _ ?_, UInt32.toNat_sub_of_le _ _ ?_, one]
    · rw [UInt32.le_iff_toNat_le]
      omega
    · rw [UInt32.le_iff_toNat_le, UInt32.toNat_sub_of_le _ _ (by rw [UInt32.le_iff_toNat_le]; omega)]
      omega
  have short : (snprintf ((cap - 1 - st.len).toNat + 1) text).length ≤
      (cap - 1 - st.len).toNat + 1 := length_snprintf_le _ (Nat.succ_pos _)
  refine (storeAll_wp h (by omega)).bind fun _ t ht => ?_
  refine Prog.wp.bind (capAppend_wp (fun i hi u hu => ?_) ?_ ht) fun st' t kept => ?_
  · have inside : st.len + UInt32.ofNat i < cap := by
      rw [UInt32.lt_iff_toNat_lt, UInt32.toNat_add, UInt32.toNat_ofNat']
      omega
    exact ⟨hu.load inside, fun _ => hu⟩
  · exact fits
  · refine Prog.wp.bind (capAppend_wp (reads_fromBytes _) ?_ kept.2) fun st' t kept => kept
    exact kept.1

theorem capPieces_wp {pieces : List (List UInt8)} (fits : st.Fits cap) (h : Holds out cap s) :
    (capPieces out cap pieces st).wp perform Covered
      (fun st' t => st'.Fits cap ∧ Holds out cap t) s := by
  induction pieces generalizing st s with
  | nil => exact ⟨fits, h⟩
  | cons piece rest ih =>
    exact (capAppend_wp (reads_fromBytes _) fits h).bind fun st' t ⟨fits', ht⟩ => ih fits' ht

theorem capPrint_wp {printed : Printed} (fits : st.Fits cap) (h : Holds out cap s) :
    (capPrint out cap printed st).wp perform Covered
      (fun st' t => st'.Fits cap ∧ Holds out cap t) s := by
  cases printed with
  | write data => exact capAppend_wp (reads_fromBytes _) fits h
  | multi text => exact outMulti_wp fits h
  | tagged pieces =>
    refine Prog.wp.bind (capPieces_wp ?_ h) fun st' t kept => ?_
    · exact fits
    · refine Prog.wp.bind (capAppend_wp (reads_fromBytes _) ?_ kept.2) fun st' t kept => kept
      exact kept.1

theorem capAll_wp {printed : List Printed} (fits : st.Fits cap) (h : Holds out cap s) :
    (capAll out cap printed st).wp perform Covered (fun _ _ => True) s := by
  induction printed generalizing st s with
  | nil => trivial
  | cons p rest ih => exact (capPrint_wp fits h).bind fun st' t ⟨fits', ht⟩ => ih fits' ht

end Capture

/-! ### The line of a command -/

section Line

variable {mem : TaskAppMem} {s : State} {p len line out cap : UInt32}

/-- The string at `p` was accepted up to its terminator. -/
structure Terminated (p len : UInt32) (s : State) : Prop where
  zero : s.bytes (p + len) = 0
  accepted : ⟨.arg p, p, len + 1, .read⟩ ∈ s.accepted
  small : len.toNat + 1 < 2 ^ 32

theorem Terminated.load (h : Terminated p len s) {n : Nat} (hn : n ≤ len.toNat) :
    Covered s (.load (.arg p) (p + UInt32.ofNat n)) := by
  refine ⟨_, h.accepted, rfl, ?_, fun no => by cases no⟩
  have small := h.small
  have next : (len + 1).toNat = (len.toNat + 1) % 2 ^ 32 := UInt32.toNat_add _ _
  show p + UInt32.ofNat n - p < len + 1
  rw [add_sub_self, UInt32.lt_iff_toNat_lt, next, UInt32.toNat_ofNat']
  omega

/-- The scan finds a terminator within the region, and changes nothing. -/
theorem scanString_wp {room : Nat} {k : UInt32} (small : k.toNat + room < 2 ^ 32) :
    (scanString p room k).wp perform Covered (fun found t => t = s ∧ ∀ len, found = some len →
      s.bytes (p + len) = 0 ∧ len.toNat < k.toNat + room) s := by
  induction room generalizing k with
  | zero => exact ⟨rfl, fun _ no => by cases no⟩
  | succ room ih =>
    refine Prog.wp_call_bind.mpr ⟨trivial, fun _ => Prog.wp_ite (fun zero => ?_) fun _ => ?_⟩
    · refine ⟨rfl, fun len same => ?_⟩
      cases same
      exact ⟨zero, by omega⟩
    · have next : (k + 1).toNat = k.toNat + 1 := by
        have add : (k + 1).toNat = (k.toNat + 1) % 2 ^ 32 := UInt32.toNat_add _ _
        omega
      refine (ih (by omega)).mono fun found t ⟨same, h⟩ => ⟨same, fun len eq => ?_⟩
      obtain ⟨zero, small⟩ := h len eq
      exact ⟨zero, by omega⟩

/-- A string that passes is terminated. -/
theorem okS_wp : (okS (some mem) p).wp perform Covered
    (fun ok t => ok = true → ∃ len, Terminated p len t) s := by
  have found : (ptrStrOk mem p).wp perform Covered (fun found t => t = s ∧ ∀ len,
      found = some len → s.bytes (p + len) = 0 ∧ len.toNat + 1 < 2 ^ 32) s := by
    refine Prog.wp_ite (fun _ => ⟨rfl, fun _ no => by cases no⟩) fun _ => ?_
    split
    · rename_i sp _
      have bound := (sp.size - (p - sp.base)).toNat_lt
      have zero : (0 : UInt32).toNat = 0 := rfl
      refine (scanString_wp (by omega)).mono fun found t ⟨same, h⟩ => ⟨same, fun len eq => ?_⟩
      obtain ⟨terminated, inside⟩ := h len eq
      exact ⟨terminated, by omega⟩
    · exact ⟨rfl, fun _ no => by cases no⟩
  refine found.bind fun result t ⟨same, h⟩ => ?_
  subst same
  cases result with
  | none => exact fun no => by cases no
  | some len =>
    obtain ⟨zero, small⟩ := h len rfl
    exact Prog.wp_call_bind.mpr ⟨trivial, fun _ _ => ⟨len, zero, List.mem_cons_self, small⟩⟩

/-- The copy of the line stops at the terminator. -/
theorem copyLine_wp {left n : Nat} {work : List UInt8} (h : Terminated line len s)
    (hn : n ≤ len.toNat) :
    (copyLine line left n work).wp perform Covered (fun _ t => t = s) s := by
  induction left generalizing n work with
  | zero => exact Prog.wp_call_bind.mpr ⟨h.load hn, fun _ => rfl⟩
  | succ left ih =>
    refine Prog.wp_call_bind.mpr ⟨h.load hn, fun _ => Prog.wp_ite (fun _ => ?_) fun more => ?_⟩
    · exact Prog.wp_call_bind.mpr ⟨h.load hn, fun _ => rfl⟩
    · refine ih (Nat.lt_of_le_of_ne hn ?_)
      rintro rfl
      refine more ?_
      show s.bytes (line + UInt32.ofNat len.toNat) = 0
      rw [UInt32.ofNat_toNat]
      exact h.zero

theorem Holds.start {b : UInt8} (h : Holds out cap s) (room : cap ≠ 0) :
    Covered s (.store (.arg out) out b) := by
  have inside := h.store (b := b) (UInt32.pos_iff_ne_zero.mpr room)
  rwa [UInt32.add_zero] at inside

theorem runLine_wp {ran : Ran} (line_ : Terminated line len s)
    (buffer : out ≠ 0 → cap ≠ 0 → Holds out cap s) :
    (runLine ran line out cap).wp perform Covered (fun _ _ => True) s := by
  refine (copyLine_wp line_ (Nat.zero_le _)).bind fun work t same => ?_
  subst same
  cases work with
  | none => trivial
  | some work =>
    refine Prog.wp_ite (fun _ => trivial) fun some_ => ?_
    obtain ⟨out_, cap_⟩ := not_or.mp some_
    have h := buffer out_ cap_
    refine Prog.wp_call_bind.mpr ⟨h.start cap_, fun _ => Prog.wp_ite (fun _ => trivial) fun _ => ?_⟩
    refine Prog.wp_call_bind.mpr ⟨Holds.start h cap_, fun _ => ?_⟩
    refine Prog.wp.bind (capAll_wp ?_ ?_) fun _ _ _ => trivial
    · exact UInt32.lt_iff_toNat_lt.mp (UInt32.pos_iff_ne_zero.mpr cap_)
    · exact h

theorem fwShellRun_wp {ran : Ran} :
    (fwShellRun mem ran line out cap).wp perform Covered (fun _ _ => True) s := by
  refine okS_wp.bind fun named t terminated => Prog.wp_ite (fun ok => ?_) fun _ => trivial
  obtain ⟨len, line_⟩ := terminated ok
  refine Prog.wp_ite (fun _ => ?_) fun none => ?_
  · refine Prog.wp_bind.mpr (wp_okRange_true trivial fun _ => ?_)
    rw [if_pos rfl]
    refine runLine_wp ⟨line_.zero, ?_, line_.small⟩ fun _ _ => List.mem_cons_self
    exact List.mem_cons_of_mem _ line_.accepted
  · exact runLine_wp line_ fun out_ cap_ => absurd ⟨out_, cap_⟩ none

/-! ### A detached run -/

/-- The answer stays inside the buffer that is checked for it, and accepts nothing else. -/
theorem handOver_wp {text : Option (List UInt8)} {r : DetachRun} {R : List Range → Prop}
    (h : R s.accepted) (grows : ∀ l range, R l → R (range :: l)) :
    (handOver mem text r).wp perform Covered (fun _ t => R t.accepted) s := by
  refine Prog.wp_ite (fun _ => h) fun some_ => ?_
  refine Prog.wp_bind.mpr (wp_okRange_true h fun _ => ?_)
  rw [if_pos rfl]
  have buffer : Holds r.pkgOut r.pkgCap
      { s with accepted := ⟨.arg r.pkgOut, r.pkgOut, r.pkgCap, .write⟩ :: s.accepted } :=
    List.mem_cons_self
  refine storeAll_iff.mpr ⟨fun k hk => buffer.writable ?_, grows _ _ h⟩
  have room : 0 < r.pkgCap.toNat :=
    UInt32.lt_iff_toNat_lt.mp (UInt32.pos_iff_ne_zero.mpr (not_or.mp some_).2)
  have short := length_snprintf_le (text.getD []) room
  have bound := r.pkgCap.toNat_lt
  rw [UInt32.zero_add, UInt32.lt_iff_toNat_lt, UInt32.toNat_ofNat']
  omega

theorem collect_wp {d : Detached} {handle : Int32} {status : UInt32}
    (word : status ≠ 0 → Holds status 4 s) :
    (collect mem d handle status).wp perform Covered (fun _ _ => True) s := by
  refine Prog.wp_ite (fun _ => trivial) fun _ => ?_
  cases detachFind d handle mem.text with
  | none => trivial
  | some r =>
    refine Prog.wp_ite (fun _ => trivial) fun _ => ?_
    refine Prog.wp.bind (handOver_wp (R := fun l =>
      status ≠ 0 → (⟨.arg status, status, 4, .write⟩ : Range) ∈ l) word fun _ _ h some_ =>
        List.mem_cons_of_mem _ (h some_)) fun _ t word => ?_
    by_cases some_ : status = 0
    · rw [if_neg (by simpa using some_)]
      trivial
    · rw [if_pos some_]
      exact (storeAll_wp (word some_) (by simp)).bind fun _ _ _ => trivial

theorem fwShellDone_wp {d : Detached} {handle : Int32} {status : UInt32} :
    (fwShellDone mem d handle status).wp perform Covered (fun _ _ => True) s := by
  refine Prog.wp_ite (fun _ => ?_) fun none => collect_wp fun some_ => absurd some_ none
  refine Prog.wp_bind.mpr (wp_okRange_true trivial fun _ => ?_)
  rw [if_pos rfl]
  exact collect_wp fun _ => List.mem_cons_self

end Line

/-! ### All calls -/

/-- The scan is refused or has room for the records that it writes; the other calls always fit. -/
def Call.Fits (mem : TaskAppMem) (o : Outside) : Call → Prop
  | .netScan out max => ptrOk (some mem) out (max * sizeofAp) .write = true → out ≠ 0 →
      ∀ entries, o.scan = some entries →
        48 * min entries.length max.toNat ≤ (max * sizeofAp).toNat
  | _ => True

/-- Every byte that a call touches lies in a range that a check of the call accepted, exactly when
the call fits. -/
theorem calls_covered_iff (mem : TaskAppMem) (o : Outside) (bytes : UInt32 → UInt8) (c : Call) :
    (∀ v ∈ touches (c.run mem o) bytes, Covered v.1 v.2) ↔ c.Fits mem o := by
  have run : (∀ v ∈ touches (c.run mem o) bytes, Covered v.1 v.2) ↔
      (c.run mem o).wp perform Covered (fun _ _ => True) ⟨bytes, []⟩ :=
    ⟨Prog.wp_of_asked, fun h => h.asked⟩
  refine run.trans ?_
  cases c with
  | netScan out max => exact fwNetScan_iff
  | pioLoad => exact iff_of_true fwPioLoad_wp trivial
  | storageRoots => exact iff_of_true fwStorageRoots_wp trivial
  | lineRead => exact iff_of_true fwLineRead_wp trivial
  | shellRun => exact iff_of_true fwShellRun_wp trivial
  | shellDone => exact iff_of_true fwShellDone_wp trivial

/-- A device on which a scan found one network. -/
def oneNetwork : Outside where
  scan := some [⟨[0x68], -40, 6, 4⟩]
  pio := ⟨[], false, 0, fun len => List.range len.toNat, fun _ _ => List.mem_range.mp⟩
  flashTotal := 0
  flashFree := 0
  sd := none
  console := true
  inputs := []
  ran := ⟨false, fun _ => [], fun _ => 0⟩
  detached := ⟨[], [], none⟩

/-- Room for `2 ^ 28` networks is room for no byte, at any address. -/
theorem not_all_calls_covered :
    ¬∀ (mem : TaskAppMem) (o : Outside) (bytes : UInt32 → UInt8) (c : Call),
      ∀ v ∈ touches (c.run mem o) bytes, Covered v.1 v.2 := by
  intro h
  have outside : ¬∀ v ∈ touches (Call.run ⟨0x10400000, 0x1000, 0x20010000, 0x400, 0, 0, 0, 0, 0, 0⟩
      oneNetwork (.netScan 0x20000000 0x10000000)) (fun _ => 0), Covered v.1 v.2 := by decide
  exact outside (h _ _ _ _)

end RPCortex.Abi
