import RPCortex.Settings.Registry

/-! What a saved table reads back as.  The loaders never produce a key with `=` in it, a key that
starts with `#`, or a line end in a key or a value; a table whose entries are free of these comes
back as it was, also when the line end of the last line is missing. -/

namespace RPCortex.Settings

open Lib Registry

/-- The entry keeps clear of the characters that structure a line. -/
structure Entry.Clean (e : Entry) : Prop where
  key_equals : equals ∉ e.key.bytes
  key_newline : newline ∉ e.key.bytes
  key_hash : e.key.bytes.head? ≠ some hash
  val_newline : newline ∉ e.val.bytes

theorem entryLine_ne_nil (e : Entry) : entryLine e ≠ [] := by simp [entryLine]

theorem length_entryLine_le (e : Entry) : (entryLine e).length ≤ regKeyMax + regValMax + 1 := by
  have hk := e.key_fits
  have hv := e.val_fits
  simp only [entryLine, List.length_append, List.length_cons]
  omega

theorem zero_notMem_entryLine (e : Entry) : 0 ∉ entryLine e := by
  simp only [entryLine, List.mem_append, List.mem_cons, not_or]
  exact ⟨e.key.noNul, by decide, e.val.noNul⟩

theorem Entry.Clean.line {e : Entry} (h : e.Clean) : newline ∉ entryLine e := by
  simp only [entryLine, List.mem_append, List.mem_cons, not_or]
  exact ⟨h.key_newline, by decide, h.val_newline⟩

/-- The line of a clean entry reads as the entry. -/
theorem parseLine_entryLine {e : Entry} (h : e.Clean) :
    parseLine (entryLine e) = some (e.key, e.val) := by
  have whole : cstr ((entryLine e).take (regKeyMax + regValMax + 1)) = entryLine e := by
    rw [List.take_of_length_le (length_entryLine_le e), cstr_of_notMem (zero_notMem_entryLine e)]
  have start : (entryLine e).head? ≠ some hash := by
    rw [entryLine, List.head?_append]
    cases hk : e.key.bytes.head? with
    | none => simpa using (by decide : equals ≠ hash)
    | some c =>
      have := h.key_hash
      rw [hk] at this
      simpa using this
  simp only [parseLine, whole]
  rw [if_neg (not_or.mpr ⟨entryLine_ne_nil e, start⟩), entryLine, cutAt_append h.key_equals]
  simp [CString.ofBuffer_bytes]

theorem entryOf_self (e : Entry) : entryOf e.key e.val = some e := by
  rw [entryOf, dif_pos ⟨e.key_fits, e.val_fits⟩]

theorem of_entryOf {key val : CString} {e : Entry} (h : entryOf key val = some e) :
    e.key = key ∧ e.val = val := by
  unfold entryOf at h
  split at h
  · obtain rfl := Option.some.inj h
    exact ⟨rfl, rfl⟩
  · cases h

/-- A line that reads as a key and a value does so in the way its entry is written. -/
theorem parseLine_clean {raw : List UInt8} {key val : CString} {e : Entry}
    (line : newline ∉ raw) (hp : parseLine raw = some (key, val)) (he : entryOf key val = some e) :
    e.Clean ∧ (entryLine e).length ≤ raw.length := by
  obtain ⟨rfl, rfl⟩ := of_entryOf he
  simp only [parseLine] at hp
  split at hp
  · cases hp
  · rename_i hline
    rw [not_or] at hline
    obtain ⟨⟨before, behind⟩, hcut, hpair⟩ := Option.map_eq_some_iff.mp hp
    obtain ⟨hkey, hval⟩ := by simpa using hpair
    obtain ⟨hwhole, hbefore⟩ := of_cutAt hcut
    have sub : ∀ b ∈ before ++ equals :: behind, b ∈ raw := by
      intro b hb
      rw [← hwhole] at hb
      exact List.mem_of_mem_take ((List.takeWhile_sublist _).mem hb)
    have nul : 0 ∉ before ++ equals :: behind := by
      rw [← hwhole]
      exact zero_notMem_cstr _
    have keyBytes : e.key.bytes = before := by
      rw [← hkey]
      exact cstr_of_notMem fun h => nul (List.mem_append_left _ h)
    have valBytes : e.val.bytes = behind := by
      rw [← hval]
      exact cstr_of_notMem fun h => nul (List.mem_append_right _ (List.mem_cons_of_mem _ h))
    refine ⟨⟨by rwa [keyBytes], ?_, ?_, ?_⟩, ?_⟩
    · rw [keyBytes]
      exact fun h => line (sub _ (List.mem_append_left _ h))
    · rw [keyBytes]
      intro h
      apply hline.2
      rw [hwhole, List.head?_append, h]
      rfl
    · rw [valBytes]
      exact fun h => line (sub _ (List.mem_append_right _ (List.mem_cons_of_mem _ h)))
    · rw [entryLine, keyBytes, valBytes, ← hwhole]
      calc (cstr (raw.take (regKeyMax + regValMax + 1))).length
          ≤ (raw.take (regKeyMax + regValMax + 1)).length :=
            (List.takeWhile_sublist _).length_le
        _ ≤ raw.length := by simp

/-! ### Loading -/

/-- The bytes that a table takes in a file. -/
def textLength {max : Nat} (t : Table max) : Nat := (tableText t).length

theorem textLength_eq {max : Nat} (t : Table max) :
    textLength t = (t.entries.map fun e => (entryLine e).length + 1).sum := by
  unfold textLength tableText
  induction t.entries with
  | nil => rfl
  | cons e rest ih =>
    rw [List.map_cons, unlines_cons, List.length_append, List.length_cons, ih, List.map_cons,
      List.sum_cons]
    omega

theorem sum_replaced_le (e : Entry) (l : List Entry) (distinct : (l.map Entry.key).Nodup) :
    ((Table.replaced e l).map fun x => (entryLine x).length + 1).sum ≤
      (l.map fun x => (entryLine x).length + 1).sum + ((entryLine e).length + 1) := by
  induction l with
  | nil => simp [Table.replaced]
  | cons x rest ih =>
    rw [List.map_cons, List.nodup_cons] at distinct
    have more := ih distinct.2
    simp only [Table.replaced, List.map_cons, List.sum_cons] at more ⊢
    split
    · rename_i hx
      have same : Table.replaced e rest = rest := by
        rw [Table.replaced, List.map_congr_left (g := id), List.map_id]
        intro y hy
        rw [if_neg]
        · rfl
        · intro hk
          exact distinct.1 (by rw [hx, ← hk]; exact List.mem_map_of_mem hy)
      rw [Table.replaced] at same
      rw [same]
      omega
    · omega

/-- An entry makes a table's text longer by no more than its own line. -/
theorem textLength_put {max : Nat} {t t' : Table max} {e : Entry} (h : t.put e = some t') :
    textLength t' ≤ textLength t + ((entryLine e).length + 1) := by
  rw [textLength_eq, textLength_eq]
  unfold Table.put at h
  split at h
  · obtain rfl := Option.some.inj h
    exact sum_replaced_le e t.entries t.distinct
  · split at h
    · obtain rfl := Option.some.inj h
      simp
    · cases h

/-- What the loaders make of lines, started from a table: their entries are clean or were there, and
the text grows by no more than the lines. -/
theorem loadLine_clean {max : Nat} {t : Table max} {raw : List UInt8} {pair : CString × CString}
    (line : newline ∉ raw) (hp : parseLine raw = some pair) :
    (∀ e ∈ (loadLine t pair).entries, e.Clean ∨ e ∈ t.entries) ∧
      textLength (loadLine t pair) ≤ textLength t + (raw.length + 1) := by
  unfold loadLine
  cases he : entryOf pair.1 pair.2 with
  | none => exact ⟨fun e h => .inr h, by simp⟩
  | some e =>
    obtain ⟨clean, short⟩ := parseLine_clean line hp he
    cases hput : t.put e with
    | none => exact ⟨fun x hx => .inr (by simpa [hput] using hx), by simp [hput]⟩
    | some t' =>
      refine ⟨fun x hx => ?_, ?_⟩
      · rcases Table.mem_put hput (by simpa [hput] using hx) with rfl | hx
        · exact .inl clean
        · exact .inr hx
      · have := textLength_put hput
        simp only [hput, Option.getD_some]
        omega

theorem loadLines_clean {lines : List (List UInt8)} (h : ∀ line ∈ lines, newline ∉ line)
    (t : Table regMax) :
    (∀ e ∈ (loadLines t lines).entries, e.Clean ∨ e ∈ t.entries) ∧
      textLength (loadLines t lines) ≤
        textLength t + (lines.map fun line => line.length + 1).sum := by
  induction lines generalizing t with
  | nil => exact ⟨fun e he => .inr he, by simp [loadLines]⟩
  | cons raw rest ih =>
    have hrest := ih fun line hl => h line (by simp [hl])
    rw [List.map_cons, List.sum_cons]
    simp only [loadLines]
    cases hp : parseLine raw with
    | none =>
      refine ⟨(hrest t).1, ?_⟩
      have := (hrest t).2
      simp only
      omega
    | some pair =>
      have step := loadLine_clean (t := t) (h raw (by simp)) hp
      refine ⟨fun e he => ?_, ?_⟩
      · rcases (hrest _).1 e he with hc | he
        · exact .inl hc
        · exact step.1 e he
      · have := (hrest (loadLine t pair)).2
        have := step.2
        simp only
        omega

/-- Everything that `reg_load` puts in the table is clean. -/
theorem regLoad_clean (text : List UInt8) (r : Registry) :
    ∀ e ∈ (regLoad text r).dev.entries, e.Clean := by
  intro e he
  rcases (loadLines_clean (fun _ h => notMem_of_mem_splitLines h) .empty).1 e he with h | h
  · exact h
  · cases h

/-- What `reg_load` puts in the table takes no more bytes than the text, but for a line end. -/
theorem textLength_regLoad (text : List UInt8) (r : Registry) :
    textLength (regLoad text r).dev ≤ text.length + 1 := by
  have := (loadLines_clean (fun _ (h : _ ∈ splitLines newline text) =>
    notMem_of_mem_splitLines h) .empty).2
  have empty : textLength (Table.empty : Table regMax) = 0 := rfl
  have lines := sum_length_splitLines newline text
  simp only [regLoad]
  omega

/-- The lines of clean entries, loaded behind a table with other keys, put the entries there. -/
theorem loadLines_entries {l : List Entry} (clean : ∀ e ∈ l, e.Clean) (t : Table regMax)
    (distinct : ((t.entries ++ l).map Entry.key).Nodup)
    (bounded : t.entries.length + l.length ≤ regMax) :
    (loadLines t (l.map entryLine)).entries = t.entries ++ l := by
  induction l generalizing t with
  | nil => simp [loadLines]
  | cons e rest ih =>
    have new : e.key ∉ t.entries.map Entry.key := by
      rw [List.map_append, List.map_cons] at distinct
      intro hmem
      exact (List.nodup_append.mp distinct).2.2 _ hmem e.key (by simp) rfl
    rw [List.length_cons] at bounded
    obtain ⟨t', hput, ht'⟩ := Table.put_new new (by omega)
    have step : loadLine t (e.key, e.val) = t' := by simp [loadLine, entryOf_self, hput]
    rw [List.map_cons, loadLines, parseLine_entryLine (clean e (by simp))]
    simp only [step]
    rw [ih (fun x hx => clean x (by simp [hx])) t' (by rw [ht']; simpa using distinct)
      (by rw [ht', List.length_append, List.length_singleton]; omega), ht']
    simp

/-- A table of clean entries comes back from its lines. -/
theorem loadLines_tableLines {t : Table regMax} (clean : ∀ e ∈ t.entries, e.Clean) :
    loadLines .empty (t.entries.map entryLine) = t := by
  apply Table.ext
  have := loadLines_entries clean .empty (by simpa [Table.empty] using t.distinct)
    (by simpa [Table.empty] using t.bounded)
  simpa [Table.empty] using this

theorem splitLines_tableText {max : Nat} {t : Table max} (clean : ∀ e ∈ t.entries, e.Clean) :
    splitLines newline (tableText t) = t.entries.map entryLine := by
  apply splitLines_unlines
  intro line hline
  obtain ⟨e, he, rfl⟩ := List.mem_map.mp hline
  exact (clean e he).line

/-- A table of clean entries comes back from its text. -/
theorem regLoad_tableText {t : Table regMax} (clean : ∀ e ∈ t.entries, e.Clean) (r : Registry) :
    (regLoad (tableText t) r).dev = t := by
  simp only [regLoad]
  rw [splitLines_tableText clean, loadLines_tableLines clean]

/-- It also comes back when the last line end is cut off. -/
theorem regLoad_tableText_dropLast {t : Table regMax} (clean : ∀ e ∈ t.entries, e.Clean)
    (r : Registry) : (regLoad (tableText t).dropLast r).dev = t := by
  simp only [regLoad]
  rw [tableText, splitLines_unlines_dropLast, loadLines_tableLines clean]
  · intro line hline
    obtain ⟨e, he, rfl⟩ := List.mem_map.mp hline
    exact (clean e he).line
  · intro line hline
    obtain ⟨e, _, rfl⟩ := List.mem_map.mp hline
    exact entryLine_ne_nil e

/-! ### The round trip -/

theorem regSerialize_fst {cap : Nat} {r : Registry} (room : (r.regSerialize cap).2 < cap) :
    (r.regSerialize cap).1 = tableText r.dev := by
  unfold regSerialize at room ⊢
  rw [serializeFrom_need] at room
  have := serializeFrom_eq cap [] (r.dev.entries.map entryLine) (by simpa using room)
  rw [List.length_nil] at this
  rw [this]
  rfl

/-- The registry after a list of `reg_set` calls. -/
def afterSets (r : Registry) (calls : List (CString × CString)) : Registry :=
  calls.foldl (fun r (key, val) => (r.regSet key val).2) r

/-- The device's table of `r` is saved in a buffer of `cap` bytes and loaded into an empty one with
the same mapping from keys to values. -/
def RoundTrips (cap : Nat) (r : Registry) : Prop :=
  ∀ key, (regLoad (r.regSerialize cap).1 fresh).dev.lookup key = r.dev.lookup key

/-- Whatever `reg_set` calls filled the table, saving it in a large enough buffer and loading it gives
the same mapping back exactly when no key has `=` or a line end in it or starts with `#`, and no
value has a line end in it. -/
theorem afterSets_roundTrips_iff (scope : CString) (calls : List (CString × CString)) (cap : Nat)
    (room : ((afterSets { fresh with scope } calls).regSerialize cap).2 < cap) :
    RoundTrips cap (afterSets { fresh with scope } calls) ↔
      ∀ e ∈ (afterSets { fresh with scope } calls).dev.entries, e.Clean := by
  generalize afterSets { fresh with scope } calls = r at room ⊢
  unfold RoundTrips
  rw [regSerialize_fst room]
  constructor
  · intro same e he
    have found := (same e.key).trans (Table.lookup_of_mem he)
    obtain ⟨x, hx, hkey, hval⟩ := Table.mem_of_lookup found
    have clean := regLoad_clean _ _ x hx
    exact ⟨hkey ▸ clean.key_equals, hkey ▸ clean.key_newline, hkey ▸ clean.key_hash,
      hval ▸ clean.val_newline⟩
  · intro clean key
    rw [regLoad_tableText clean]

/-- The setting `A` with the value `b`. -/
theorem afterSets_roundTrips_one :
    RoundTrips 16 (afterSets fresh [(⟨[0x41], by decide⟩, ⟨[0x62], by decide⟩)]) ↔
      ∀ e ∈ (afterSets fresh [(⟨[0x41], by decide⟩, ⟨[0x62], by decide⟩)]).dev.entries, e.Clean :=
  afterSets_roundTrips_iff ⟨[], by simp⟩ [(⟨[0x41], by decide⟩, ⟨[0x62], by decide⟩)] 16
    (by decide +kernel)

/-- A value with a line end in it: `reg_set` takes `A` with the value `b`, line end, `C=d`, and the
table that is loaded back has the value `b` for `A`. -/
theorem not_all_tables_roundTrip :
    ¬∀ (scope : CString) (calls : List (CString × CString)) (cap : Nat),
    ((afterSets { fresh with scope } calls).regSerialize cap).2 < cap →
      RoundTrips cap (afterSets { fresh with scope } calls) := by
  intro all
  have := all ⟨[], by simp⟩ [(⟨[0x41], by decide⟩, ⟨[0x62, 0x0A, 0x43, 0x3D, 0x64], by decide⟩)] 16
    (by decide +kernel) ⟨[0x41], by decide⟩
  revert this
  decide +kernel

end RPCortex.Settings
