import RPCortex.Rollback.Restore

/-! The record that a capture writes is read back with the hash of the image. -/

namespace RPCortex.Rollback

open Lib

variable {b : UInt8} {sha256 : List UInt8 → Digest} {firmware : List UInt8}

/-- Digits and letters stand above the line end and the NUL. -/
theorem hexDigit_ge {d : UInt8} (h : d < 16) : 0x30 ≤ hexDigit d := by
  rw [UInt8.lt_iff_toNat_lt] at h
  unfold hexDigit
  split <;> rename_i small <;> rw [UInt8.lt_iff_toNat_lt] at small <;>
    rw [UInt8.le_iff_toNat_le, UInt8.toNat_add] <;> simp at h small ⊢ <;> omega

theorem hex_ge {d : Digest} (h : b ∈ hex d) : 0x30 ≤ b := by
  obtain ⟨x, -, mem⟩ := List.mem_flatMap.mp h
  have high : x / 16 < 16 := by
    rw [UInt8.lt_iff_toNat_lt, UInt8.toNat_div]
    have := x.toNat_lt
    simp
    omega
  have low : x % 16 < 16 := by
    rw [UInt8.lt_iff_toNat_lt, UInt8.toNat_mod]
    simp
    omega
  rcases List.mem_cons.mp mem with rfl | mem
  · exact hexDigit_ge high
  · obtain rfl := List.mem_singleton.mp mem
    exact hexDigit_ge low

theorem length_hex (d : Digest) : (hex d).length = 64 := by
  simp [hex, List.length_flatMap]

/-- A number in decimal digits. -/
theorem ascii_toString_ge {n : Nat} (h : b ∈ ascii (toString n)) : 0x30 ≤ b := by
  obtain ⟨c, mem, rfl⟩ := List.mem_map.mp h
  rw [Nat.toString_eq_repr, Nat.toList_repr] at mem
  have isDigit := Nat.isDigit_of_mem_toDigits (by omega) (by omega) mem
  simp only [Char.isDigit, Bool.and_eq_true, decide_eq_true_eq] at isDigit
  obtain ⟨low, high⟩ := isDigit
  rw [ge_iff_le, UInt32.le_iff_toNat_le] at low
  rw [UInt32.le_iff_toNat_le] at high
  rw [UInt8.le_iff_toNat_le]
  have byte : c.toNat.toUInt8.toNat = c.val.toNat % 256 := UInt8.toNat_ofNat'
  rw [byte]
  have first : (0x30 : UInt8).toNat = 48 := rfl
  have char : '0'.val.toNat = 48 ∧ '9'.val.toNat = 57 := by decide
  omega

theorem length_ascii_toString {n : Nat} (h : n < 2 ^ 32) : (ascii (toString n)).length ≤ 10 := by
  rw [ascii, List.length_map, Nat.toString_eq_repr, String.length_toList]
  exact (Nat.length_repr_le_iff (by omega)).mpr (by omega)

variable (build : Build)

/-- The record fits the buffer that it is printed in, and a sink keeps it until it is closed. -/
theorem length_recordText (h : firmware.length < 2 ^ 32) :
    (recordText sha256 build firmware).length < 320 := by
  have size := length_ascii_toString h
  have reserve := length_ascii_toString build.reserve.toNat_lt
  have short := build.short
  have literals : (ascii "ver=").length = 4 ∧ (ascii "\nboard=").length = 7 ∧
      (ascii "\nsize=").length = 6 ∧ (ascii "\nreserve=").length = 9 ∧
      (ascii "\nsha=").length = 5 := by decide
  simp only [recordText, List.length_append, length_hex, List.length_singleton]
  omega

theorem notMem_recordText : 0 ∉ recordText sha256 build firmware := by
  have digits (n : Nat) : 0 ∉ ascii (toString n) := fun h =>
    absurd (ascii_toString_ge h) (by decide)
  have sha : 0 ∉ hex (sha256 firmware) := fun h => absurd (hex_ge h) (by decide)
  have literals : 0 ∉ ascii "ver=" ∧ 0 ∉ ascii "\nboard=" ∧ 0 ∉ ascii "\nsize=" ∧
      0 ∉ ascii "\nreserve=" ∧ 0 ∉ ascii "\nsha=" := by decide
  obtain ⟨l1, l2, l3, l4, l5⟩ := literals
  simp only [recordText, List.mem_append, not_or]
  exact ⟨⟨⟨⟨⟨⟨⟨⟨⟨⟨l1, build.verText⟩, l2⟩, build.boardText⟩, l3⟩, digits _⟩, l4⟩, digits _⟩, l5⟩,
    sha⟩, by decide⟩

theorem capture_foldl_parseLine (lines : List (List UInt8)) (o : RollbackInfo) :
    (lines.foldl parseLine o).capture = o.capture := by
  induction lines generalizing o with
  | nil => rfl
  | cons line lines ih =>
    rw [List.foldl_cons, ih]
    unfold parseLine
    (repeat' split) <;> rfl

theorem capture_parseRecord (f : File) : (parseRecord f).capture = f.capture :=
  capture_foldl_parseLine _ _

/-- The last line of the record. -/
theorem parseLine_sha (o : RollbackInfo) (d : Digest) :
    parseLine o (ascii "sha=" ++ hex d) = { o with sha := hex d } := by
  have eq : ascii "sha=" ++ hex d = ascii "sha" ++ 0x3D :: hex d := rfl
  rw [parseLine, eq, cutAt_append (by decide)]
  have whole : field 65 (hex d) = hex d := List.take_of_length_le (by rw [length_hex])
  simp only [whole]
  rfl

/-- The hash that is read from a record is the hash of the image it was written for. -/
theorem sha_recordText (capture : Nat) :
    (parseRecord ⟨recordText sha256 build firmware, capture⟩).sha = hex (sha256 firmware) := by
  unfold parseRecord
  rw [cstr_of_notMem (notMem_recordText build)]
  have last : 0x0A ∉ ascii "sha=" ++ hex (sha256 firmware) := by
    rw [List.mem_append, not_or]
    exact ⟨by decide, fun h => absurd (hex_ge h) (by decide)⟩
  have parts : recordText sha256 build firmware =
      (ascii "ver=" ++ build.ver ++ ascii "\nboard=" ++ build.board ++
        ascii "\nsize=" ++ ascii (toString firmware.length) ++
        ascii "\nreserve=" ++ ascii (toString build.reserve.toNat)) ++
      0x0A :: (ascii "sha=" ++ hex (sha256 firmware) ++ 0x0A :: []) := by
    have cut : ascii "\nsha=" = 0x0A :: ascii "sha=" := rfl
    simp only [recordText, cut, List.append_assoc, List.cons_append]
  obtain ⟨first, lines, eq⟩ := splitLines_behind 0x0A
    (ascii "ver=" ++ build.ver ++ ascii "\nboard=" ++ build.board ++
      ascii "\nsize=" ++ ascii (toString firmware.length) ++
      ascii "\nreserve=" ++ ascii (toString build.reserve.toNat))
    (ascii "sha=" ++ hex (sha256 firmware) ++ 0x0A :: [])
  rw [parts, eq, splitLines_append last, List.foldl_append, splitLines, List.foldl_cons,
    List.foldl_nil, parseLine_sha]

end RPCortex.Rollback
