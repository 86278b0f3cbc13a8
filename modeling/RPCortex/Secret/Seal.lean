import Mathlib.Tactic
import RPCortex.Lib.Text

/-! The text form of a sealed secret, `secret.cpp`: base64 in groups of three bytes without padding.  What is
encoded is decoded as it was.  The other way round a text is encoded again only when the bits of its last
group that no byte takes are zero. -/

namespace RPCortex.Secret

/-- A byte of `B64`. -/
def b64Char (v : Nat) : UInt8 :=
  if v < 26 then .ofNat (0x41 + v)
  else if v < 52 then .ofNat (0x61 + (v - 26))
  else if v < 62 then .ofNat (0x30 + (v - 52))
  else if v = 62 then 0x2D
  else 0x5F

/-- `b64_val`; there is none for -1. -/
def b64Val (c : UInt8) : Option Nat :=
  if 0x41 ≤ c ∧ c ≤ 0x5A then some (c.toNat - 0x41)
  else if 0x61 ≤ c ∧ c ≤ 0x7A then some (c.toNat - 0x61 + 26)
  else if 0x30 ≤ c ∧ c ≤ 0x39 then some (c.toNat - 0x30 + 52)
  else if c = 0x2D then some 62
  else if c = 0x5F then some 63
  else none

/-- The first `k` characters of the 24 bits `v`. -/
def groupOf (v k : Nat) : List UInt8 := ([18, 12, 6, 0].take k).map fun shift => b64Char (v / 2 ^ shift % 64)

/-- `b64_encode`. -/
def b64Encode : List UInt8 → List UInt8
  | [] => []
  | [a] => groupOf (a.toNat * 2 ^ 16) 2
  | [a, b] => groupOf (a.toNat * 2 ^ 16 + b.toNat * 2 ^ 8) 3
  | a :: b :: c :: rest => groupOf (a.toNat * 2 ^ 16 + b.toNat * 2 ^ 8 + c.toNat) 4 ++ b64Encode rest

/-- The 24 bits of a group; a character that is not there is zero. -/
def wordOf (v : List Nat) : Nat := v.getD 0 0 * 2 ^ 18 + v.getD 1 0 * 2 ^ 12 + v.getD 2 0 * 2 ^ 6 + v.getD 3 0

/-- The first bytes of 24 bits. -/
def bytesOf (w bytes : Nat) : List UInt8 := ([16, 8, 0].take bytes).map fun shift => .ofNat (w / 2 ^ shift)

/-- The values of characters, if each of them has one. -/
def b64Vals : List UInt8 → Option (List Nat)
  | [] => some []
  | c :: cs => (b64Val c).bind fun v => (b64Vals cs).map (v :: ·)

/-- The bytes of a group, if they have room and each character has a value. -/
def decodeGroup (cs : List UInt8) (room : Nat) : Option (List UInt8) :=
  (b64Vals cs).bind fun v => if room < cs.length - 1 then none else some (bytesOf (wordOf v) (cs.length - 1))

/-- The loop of `b64_decode`.  A single character is never left, because its length is refused. -/
def decodeFrom : (cs : List UInt8) → (room : Nat) → Option (List UInt8)
  | [], _ => some []
  | [_], _ => none
  | [c0, c1], room => decodeGroup [c0, c1] room
  | [c0, c1, c2], room => decodeGroup [c0, c1, c2] room
  | c0 :: c1 :: c2 :: c3 :: rest, room =>
    (decodeGroup [c0, c1, c2, c3] room).bind fun bytes => (decodeFrom rest (room - 3)).map (bytes ++ ·)

/-- `b64_decode` into a buffer of `cap` bytes. -/
def b64Decode (cs : List UInt8) (cap : Nat) : Option (List UInt8) :=
  if cs.length % 4 = 1 then none else decodeFrom cs cap

/-- The bits of the last group that no byte takes are zero. -/
def canonical : List UInt8 → Bool
  | [_, c] => (b64Val c).all (· % 16 = 0)
  | [_, _, c] => (b64Val c).all (· % 4 = 0)
  | _ :: _ :: _ :: _ :: rest => canonical rest
  | _ => true

/-! ### Characters -/

example : b64Val (b64Char 63) = some 63 := by decide +kernel

theorem b64Val_b64Char {v : Nat} (h : v < 64) : b64Val (b64Char v) = some v := by
  have all : ∀ v < 64, b64Val (b64Char v) = some v := by decide +kernel
  exact all v h

theorem b64Char_of_val {c : UInt8} {v : Nat} (h : b64Val c = some v) : v < 64 ∧ b64Char v = c := by
  have all : ∀ n < 256, ∀ v ∈ b64Val (.ofNat n), v < 64 ∧ b64Char v = .ofNat n := by decide +kernel
  have mine := all c.toNat c.toNat_lt v
  rw [UInt8.ofNat_toNat] at mine
  exact mine h

theorem b64Vals_chars {vs : List Nat} (h : ∀ v ∈ vs, v < 64) : b64Vals (vs.map b64Char) = some vs := by
  induction vs with
  | nil => rfl
  | cons v vs ih =>
    rw [List.map_cons, b64Vals, b64Val_b64Char (h v (by simp)), ih fun u mem => h u (by simp [mem])]
    rfl

theorem b64Vals_some {cs : List UInt8} {vs : List Nat} (h : b64Vals cs = some vs) :
    (∀ v ∈ vs, v < 64) ∧ cs = vs.map b64Char := by
  induction cs generalizing vs with
  | nil =>
    obtain rfl := Option.some.inj h
    exact ⟨fun _ no => absurd no List.not_mem_nil, rfl⟩
  | cons c cs ih =>
    obtain ⟨v, first, h⟩ := Option.bind_eq_some_iff.mp h
    obtain ⟨rest, others, rfl⟩ := Option.map_eq_some_iff.mp h
    obtain ⟨small, rfl⟩ := b64Char_of_val first
    obtain ⟨smaller, rfl⟩ := ih others
    refine ⟨fun u mem => ?_, rfl⟩
    rcases List.mem_cons.mp mem with rfl | mem
    · exact small
    · exact smaller u mem

/-! ### Groups -/

theorem decodeGroup_groupOf {v k room : Nat} (four : k ≤ 4) (h : k - 1 ≤ room) :
    decodeGroup (groupOf v k) room =
      some (bytesOf (wordOf (([18, 12, 6, 0].take k).map fun shift => v / 2 ^ shift % 64)) (k - 1)) := by
  have chars : groupOf v k = (([18, 12, 6, 0].take k).map fun shift => v / 2 ^ shift % 64).map b64Char := by
    rw [List.map_map]
    rfl
  have length : (groupOf v k).length = k := by
    rw [groupOf, List.length_map, List.length_take]
    exact Nat.min_eq_left four
  rw [decodeGroup, length, chars, b64Vals_chars, Option.bind_some, if_neg (by omega)]
  intro u mem
  obtain ⟨shift, _, rfl⟩ := List.mem_map.mp mem
  exact Nat.mod_lt _ (by decide)

/-- The 24 bits of three bytes come back. -/
theorem word_digits {v : Nat} (h : v < 2 ^ 24) :
    v / 2 ^ 18 % 64 * 2 ^ 18 + v / 2 ^ 12 % 64 * 2 ^ 12 + v / 2 ^ 6 % 64 * 2 ^ 6 + v / 2 ^ 0 % 64 = v := by
  omega

theorem ofNat_eq {n : Nat} {a : UInt8} (h : n % 256 = a.toNat) : UInt8.ofNat n = a := by
  refine UInt8.toNat_inj.mp ?_
  rw [UInt8.toNat_ofNat']
  exact h

/-- What is encoded is decoded. -/
theorem decodeFrom_b64Encode (x : List UInt8) (room : Nat) (fits : x.length ≤ room) :
    decodeFrom (b64Encode x) room = some x := by
  induction x using b64Encode.induct generalizing room with
  | case1 => rfl
  | case2 a =>
    have small := a.toNat_lt
    refine (decodeGroup_groupOf (k := 2) (by decide) fits).trans (congrArg some ?_)
    refine congrArg₂ _ (ofNat_eq ?_) rfl
    simp only [wordOf, List.take, List.map, List.getD_cons_zero, List.getD_cons_succ, List.getD_nil]
    omega
  | case3 a b =>
    have small := a.toNat_lt
    have small' := b.toNat_lt
    refine (decodeGroup_groupOf (k := 3) (by decide) fits).trans (congrArg some ?_)
    refine congrArg₂ _ (ofNat_eq ?_) (congrArg₂ _ (ofNat_eq ?_) rfl)
    · simp only [wordOf, List.take, List.map, List.getD_cons_zero, List.getD_cons_succ, List.getD_nil]
      omega
    · simp only [wordOf, List.take, List.map, List.getD_cons_zero, List.getD_cons_succ, List.getD_nil]
      omega
  | case4 a b c rest ih =>
    have small := a.toNat_lt
    have small' := b.toNat_lt
    have small'' := c.toNat_lt
    rw [List.length_cons, List.length_cons, List.length_cons] at fits
    have group := decodeGroup_groupOf (v := a.toNat * 2 ^ 16 + b.toNat * 2 ^ 8 + c.toNat) (k := 4)
      (Nat.le_refl 4) (show 3 ≤ room by omega)
    have more := ih (room - 3) (by omega)
    have bytes : bytesOf (wordOf (([18, 12, 6, 0].take 4).map fun shift =>
        (a.toNat * 2 ^ 16 + b.toNat * 2 ^ 8 + c.toNat) / 2 ^ shift % 64)) (4 - 1) = [a, b, c] := by
      have word := word_digits (show a.toNat * 2 ^ 16 + b.toNat * 2 ^ 8 + c.toNat < 2 ^ 24 by omega)
      show [UInt8.ofNat (_ / 2 ^ 16), UInt8.ofNat (_ / 2 ^ 8), UInt8.ofNat (_ / 2 ^ 0)] = _
      simp only [wordOf, List.take, List.map, List.getD_cons_zero, List.getD_cons_succ]
      rw [word]
      refine congrArg₂ _ (ofNat_eq ?_) (congrArg₂ _ (ofNat_eq ?_) (congrArg₂ _ (ofNat_eq ?_) rfl))
      · omega
      · omega
      · omega
    rw [bytes] at group
    show ((decodeGroup (groupOf _ 4) room).bind fun bytes => (decodeFrom (b64Encode rest) (room - 3)).map
      (bytes ++ ·)) = _
    rw [group, Option.bind_some, more]
    rfl

/-- The encoding of a group that was decoded. -/
theorem decodeGroup_some {cs bytes : List UInt8} {room : Nat} (h : decodeGroup cs room = some bytes) :
    ∃ vs : List Nat, (∀ v ∈ vs, v < 64) ∧ cs = vs.map b64Char ∧
      bytes = bytesOf (wordOf vs) (cs.length - 1) ∧ cs.length - 1 ≤ room := by
  obtain ⟨vs, values, h⟩ := Option.bind_eq_some_iff.mp h
  obtain ⟨small, chars⟩ := b64Vals_some values
  split at h
  · cases h
  · exact ⟨vs, small, chars, (Option.some.inj h).symm, by omega⟩

theorem b64Char_inj {u v : Nat} (hu : u < 64) (hv : v < 64) : b64Char u = b64Char v ↔ u = v := by
  refine ⟨fun same => ?_, fun same => by rw [same]⟩
  have value := b64Val_b64Char hu
  rw [same, b64Val_b64Char hv] at value
  exact (Option.some.inj value).symm

/-- A text is the encoding of what it decodes to exactly when it is canonical. -/
theorem b64Encode_decodeFrom {cs x : List UInt8} {room : Nat} (h : decodeFrom cs room = some x) :
    (b64Encode x = cs ↔ canonical cs = true) ∧ x.length ≤ room := by
  induction cs, room using decodeFrom.induct generalizing x with
  | case1 room =>
    obtain rfl := Option.some.inj h
    exact ⟨by simp [b64Encode, canonical], Nat.zero_le _⟩
  | case2 => cases h
  | case3 c0 c1 room =>
    obtain ⟨vs, small, chars, rfl, fits⟩ := decodeGroup_some h
    obtain ⟨v0, v1, rfl⟩ := List.length_eq_two.mp (by simpa using (congrArg List.length chars).symm)
    obtain ⟨rfl, rfl⟩ : c0 = b64Char v0 ∧ c1 = b64Char v1 := by simpa using chars
    have s0 := small v0 (by simp)
    have s1 := small v1 (by simp)
    refine ⟨?_, fits⟩
    have encoded : b64Encode (bytesOf (wordOf [v0, v1]) ([b64Char v0, b64Char v1].length - 1)) =
        [b64Char v0, b64Char (v1 / 16 * 16)] := by
      show [b64Char _, b64Char _] = _
      rw [UInt8.toNat_ofNat']
      simp only [wordOf, List.getD_cons_zero, List.getD_cons_succ, List.getD_nil]
      refine List.cons_eq_cons.mpr ⟨congrArg b64Char ?_, List.cons_eq_cons.mpr ⟨congrArg b64Char ?_, rfl⟩⟩
      · omega
      · omega
    rw [encoded, canonical, b64Val_b64Char s1]
    simp only [List.cons.injEq, true_and, and_true, b64Char_inj (show v1 / 16 * 16 < 64 by omega) s1,
      Option.all_some, decide_eq_true_eq]
    omega
  | case4 c0 c1 c2 room =>
    obtain ⟨vs, small, chars, rfl, fits⟩ := decodeGroup_some h
    obtain ⟨v0, v1, v2, rfl⟩ := List.length_eq_three.mp (by simpa using (congrArg List.length chars).symm)
    obtain ⟨rfl, rfl, rfl⟩ : c0 = b64Char v0 ∧ c1 = b64Char v1 ∧ c2 = b64Char v2 := by simpa using chars
    have s0 := small v0 (by simp)
    have s1 := small v1 (by simp)
    have s2 := small v2 (by simp)
    refine ⟨?_, fits⟩
    have encoded : b64Encode (bytesOf (wordOf [v0, v1, v2])
        ([b64Char v0, b64Char v1, b64Char v2].length - 1)) =
        [b64Char v0, b64Char v1, b64Char (v2 / 4 * 4)] := by
      show [b64Char _, b64Char _, b64Char _] = _
      rw [UInt8.toNat_ofNat', UInt8.toNat_ofNat']
      simp only [wordOf, List.getD_cons_zero, List.getD_cons_succ, List.getD_nil]
      refine List.cons_eq_cons.mpr ⟨congrArg b64Char ?_, List.cons_eq_cons.mpr ⟨congrArg b64Char ?_,
        List.cons_eq_cons.mpr ⟨congrArg b64Char ?_, rfl⟩⟩⟩
      · omega
      · omega
      · omega
    rw [encoded, canonical, b64Val_b64Char s2]
    simp only [List.cons.injEq, true_and, and_true, b64Char_inj (show v2 / 4 * 4 < 64 by omega) s2,
      Option.all_some, decide_eq_true_eq]
    omega
  | case5 c0 c1 c2 c3 rest room ih =>
    obtain ⟨bytes, group, h⟩ := Option.bind_eq_some_iff.mp h
    obtain ⟨y, more, rfl⟩ := Option.map_eq_some_iff.mp h
    obtain ⟨vs, small, chars, rfl, fits⟩ := decodeGroup_some group
    obtain ⟨again, fits'⟩ := ih more
    obtain ⟨v0, v1, v2, v3, rfl⟩ := List.length_eq_four.mp (by simpa using (congrArg List.length chars).symm)
    obtain ⟨rfl, rfl, rfl, rfl⟩ : c0 = b64Char v0 ∧ c1 = b64Char v1 ∧ c2 = b64Char v2 ∧
      c3 = b64Char v3 := by simpa using chars
    have s0 := small v0 (by simp)
    have s1 := small v1 (by simp)
    have s2 := small v2 (by simp)
    have s3 := small v3 (by simp)
    have encoded : b64Encode (bytesOf (wordOf [v0, v1, v2, v3]) 3 ++ y) =
        b64Char v0 :: b64Char v1 :: b64Char v2 :: b64Char v3 :: b64Encode y := by
      show b64Char _ :: b64Char _ :: b64Char _ :: b64Char _ :: b64Encode y = _
      rw [UInt8.toNat_ofNat', UInt8.toNat_ofNat', UInt8.toNat_ofNat']
      simp only [wordOf, List.getD_cons_zero, List.getD_cons_succ]
      refine List.cons_eq_cons.mpr ⟨congrArg b64Char ?_, List.cons_eq_cons.mpr ⟨congrArg b64Char ?_,
        List.cons_eq_cons.mpr ⟨congrArg b64Char ?_, List.cons_eq_cons.mpr ⟨congrArg b64Char ?_, rfl⟩⟩⟩⟩
      · omega
      · omega
      · omega
      · omega
    have three_ : (bytesOf (wordOf [v0, v1, v2, v3]) 3).length = 3 := rfl
    refine ⟨?_, ?_⟩
    · show b64Encode (bytesOf (wordOf [v0, v1, v2, v3]) 3 ++ y) = _ ↔ canonical rest = true
      rw [encoded, ← again]
      simp
    · show (bytesOf (wordOf [v0, v1, v2, v3]) 3 ++ y).length ≤ room
      have three : 3 ≤ room := fits
      rw [List.length_append, three_]
      omega

/-- The length formula of `secret_seal`. -/
theorem length_b64Encode (x : List UInt8) : (b64Encode x).length = (x.length * 4 + 2) / 3 := by
  induction x using b64Encode.induct with
  | case1 => rfl
  | case2 a => simp [b64Encode, groupOf]
  | case3 a b => simp [b64Encode, groupOf]
  | case4 a b c rest ih =>
    rw [b64Encode, List.length_append, ih]
    simp only [groupOf, List.take, List.length_map, List.length_cons, List.length_nil]
    omega

theorem b64Decode_b64Encode {x : List UInt8} {cap : Nat} (fits : x.length ≤ cap) :
    b64Decode (b64Encode x) cap = some x := by
  rw [b64Decode, if_neg, decodeFrom_b64Encode x cap fits]
  rw [length_b64Encode]
  omega

theorem b64Encode_b64Decode {cs x : List UInt8} {cap : Nat} (h : b64Decode cs cap = some x) :
    (b64Encode x = cs ↔ canonical cs = true) ∧ x.length ≤ cap := by
  unfold b64Decode at h
  split at h
  · cases h
  · exact b64Encode_decodeFrom h

end RPCortex.Secret

/-! Sealing a secret, `secret.cpp`, over any keyed hash in the place of HMAC-SHA-256.  What is sealed opens
to what it was, and what opens was sealed, up to the bits that the decoder does not look at. -/

namespace RPCortex.Secret

open Lib

/-- `SECRET_MAX_PLAIN`. -/
def secretMaxPlain : Nat := 63

/-- `SECRET_TAG_LEN`. -/
def secretTagLen : Nat := 6

/-- `SECRET_SEAL_MAX`. -/
def secretSealMax : Nat := 96

/-- `SecretResult`, with the plaintext. -/
inductive SecretResult
  | ok (plain : List UInt8)
  | notSealed
  | bad
  deriving DecidableEq

section Operations

variable (hmac : (key text : List UInt8) → Vector UInt8 32)

/-- `subkeys`: the key of the keystream and that of the tag. -/
def subkeys (key : List UInt8) : List UInt8 × List UInt8 :=
  ((hmac key (ascii "rpc.secret.enc.v1")).toList, (hmac key (ascii "rpc.secret.mac.v1")).toList)

/-- `make_tag`. -/
def makeTag (mk context plain : List UInt8) : List UInt8 :=
  (hmac mk (.ofNat context.length :: (context ++ plain))).toList.take secretTagLen

/-- `apply_keystream`: block `j` of 32 bytes is combined with the hash of the tag and `j`. -/
def applyKeystream (ek tag text : List UInt8) : List UInt8 :=
  text.mapIdx fun i c => c ^^^ (hmac ek (tag ++ [.ofNat (i / 32)])).toList.getD (i % 32) 0

/-- The blob of `secret_seal`: the tag and what it covers. -/
def blobOf (key context plain : List UInt8) : List UInt8 :=
  let tag := makeTag hmac (subkeys hmac key).2 context plain
  tag ++ applyKeystream hmac (subkeys hmac key).1 tag plain

/-- The marker of a sealed value. -/
def marker : List UInt8 := [0x7E, 0x31]

/-- `secret_seal` into a buffer of `cap` bytes: the text, unless it fails. -/
def secretSeal (key context plain : List UInt8) (cap : Nat) : Option (List UInt8) :=
  if cap = 0 then none
  else if plain.length = 0 then some []
  else if secretMaxPlain < plain.length ∨ 255 < context.length then none
  else
    let textLen := 2 + ((secretTagLen + plain.length) * 4 + 2) / 3
    if textLen + 1 ≤ cap then some (marker ++ b64Encode (blobOf hmac key context plain)) else none

/-- `secret_is_sealed`. -/
def secretIsSealed (s : List UInt8) : Bool := marker.isPrefixOf s

/-- `secret_open` into a buffer of `cap` bytes. -/
def secretOpen (key context text : List UInt8) (cap : Nat) : SecretResult :=
  if cap = 0 then .bad
  else if !secretIsSealed text then .notSealed
  else if 255 < context.length then .bad
  else
    match b64Decode (text.drop 2) (secretTagLen + secretMaxPlain) with
    | none => .bad
    | some blob =>
      if blob.length ≤ secretTagLen then .bad
      else if cap < blob.length - secretTagLen + 1 then .bad
      else
        let tag := blob.take secretTagLen
        let pt := applyKeystream hmac (subkeys hmac key).1 tag (blob.drop secretTagLen)
        if makeTag hmac (subkeys hmac key).2 context pt = tag ∧ 0 ∉ pt then .ok pt else .bad

end Operations

variable {hmac : (key text : List UInt8) → Vector UInt8 32} {key context plain text : List UInt8} {cap : Nat}

theorem length_makeTag {mk : List UInt8} : (makeTag hmac mk context plain).length = secretTagLen := by
  rw [makeTag, List.length_take, Vector.length_toList]
  rfl

theorem length_applyKeystream {ek tag : List UInt8} :
    (applyKeystream hmac ek tag text).length = text.length := List.length_mapIdx

/-- The keystream is taken off by being applied again. -/
theorem applyKeystream_twice {ek tag : List UInt8} :
    applyKeystream hmac ek tag (applyKeystream hmac ek tag text) = text := by
  refine List.ext_getElem (by rw [length_applyKeystream, length_applyKeystream]) fun i h h' => ?_
  simp only [applyKeystream, List.getElem_mapIdx]
  rw [UInt8.xor_assoc, UInt8.xor_self, UInt8.xor_zero]

theorem length_blobOf : (blobOf hmac key context plain).length = secretTagLen + plain.length := by
  rw [blobOf, List.length_append, length_makeTag, length_applyKeystream]

theorem take_blobOf : (blobOf hmac key context plain).take secretTagLen =
    makeTag hmac (subkeys hmac key).2 context plain :=
  List.take_left' length_makeTag

theorem drop_blobOf : (blobOf hmac key context plain).drop secretTagLen =
    applyKeystream hmac (subkeys hmac key).1 (makeTag hmac (subkeys hmac key).2 context plain) plain :=
  List.drop_left' length_makeTag

/-- What `secret_seal` makes of a secret that is neither empty nor too long. -/
theorem secretSeal_eq (some_ : 1 ≤ plain.length) (short : plain.length ≤ secretMaxPlain)
    (fits : context.length ≤ 255) : secretSeal hmac key context plain secretSealMax =
      some (marker ++ b64Encode (blobOf hmac key context plain)) := by
  have room : 2 + ((secretTagLen + plain.length) * 4 + 2) / 3 + 1 ≤ secretSealMax := by
    simp only [secretTagLen, secretMaxPlain, secretSealMax] at short ⊢
    omega
  rw [secretSeal, if_neg (by decide), if_neg (by omega), if_neg (by omega)]
  exact if_pos room

/-- What opens is the blob of its plaintext. -/
theorem secretOpen_ok (h : secretOpen hmac key context text cap = .ok plain) :
    marker.isPrefixOf text = true ∧ 1 ≤ plain.length ∧
      b64Decode (text.drop 2) (secretTagLen + secretMaxPlain) = some (blobOf hmac key context plain) := by
  unfold secretOpen at h
  split at h
  · cases h
  split at h
  · cases h
  rename_i marked
  split at h
  · cases h
  split at h
  · cases h
  rename_i blob decoded
  split at h
  · cases h
  rename_i long
  split at h
  · cases h
  simp only at h
  split at h
  · rename_i verified
    have pt := SecretResult.ok.inj h
    rw [pt] at verified
    refine ⟨by simpa [secretIsSealed] using marked, ?_, ?_⟩
    · rw [← pt, length_applyKeystream, List.length_drop]
      omega
    · rw [decoded, blobOf, verified.1, ← pt, applyKeystream_twice, List.take_append_drop]
  · cases h

theorem drop_marker {s : List UInt8} (h : marker.isPrefixOf s = true) : marker ++ s.drop 2 = s := by
  obtain ⟨rest, rfl⟩ := List.isPrefixOf_iff_prefix.mp h
  rfl

/-- What is sealed fits and opens to what it was; and what opens was sealed, exactly when its last group is
canonical. -/
theorem sealed_iff (hmac : (key text : List UInt8) → Vector UInt8 32) (key context : List UInt8)
    (fits : context.length ≤ 255) :
    (∀ plain : List UInt8, 1 ≤ plain.length → plain.length ≤ secretMaxPlain → 0 ∉ plain →
      ∃ text, secretSeal hmac key context plain secretSealMax = some text ∧ text.length < secretSealMax ∧
        ∀ cap, plain.length < cap → secretOpen hmac key context text cap = .ok plain) ∧
    ∀ (text : List UInt8) (cap : Nat) (plain : List UInt8), secretOpen hmac key context text cap = .ok plain →
      (secretSeal hmac key context plain secretSealMax = some text ↔ canonical (text.drop 2) = true) := by
  refine ⟨fun plain some_ short noNul => ?_, fun text cap plain opens => ?_⟩
  · refine ⟨_, secretSeal_eq some_ short fits, ?_, fun cap room => ?_⟩
    · rw [List.length_append, length_b64Encode, length_blobOf]
      simp only [secretTagLen, secretMaxPlain, secretSealMax, marker, List.length_cons, List.length_nil] at short ⊢
      omega
    · have decoded : b64Decode (b64Encode (blobOf hmac key context plain)) (secretTagLen + secretMaxPlain) =
          some (blobOf hmac key context plain) := b64Decode_b64Encode (by rw [length_blobOf]; omega)
      have marked : secretIsSealed (marker ++ b64Encode (blobOf hmac key context plain)) = true :=
        List.isPrefixOf_iff_prefix.mpr (List.prefix_append _ _)
      have rest : (marker ++ b64Encode (blobOf hmac key context plain)).drop 2 =
          b64Encode (blobOf hmac key context plain) := rfl
      rw [secretOpen, if_neg (by omega), marked, if_neg (by decide), if_neg (by omega), rest, decoded]
      simp only
      rw [length_blobOf, if_neg (by omega), if_neg (by omega), take_blobOf, drop_blobOf, applyKeystream_twice,
        if_pos ⟨rfl, noNul⟩]
  · obtain ⟨marked, some_, decoded⟩ := secretOpen_ok opens
    obtain ⟨again, small⟩ := b64Encode_b64Decode decoded
    rw [length_blobOf] at small
    rw [secretSeal_eq some_ (by omega) fits, ← again]
    constructor
    · intro same
      rw [← Option.some.inj same]
      rfl
    · intro same
      rw [same, drop_marker marked]

/-- A hash that is always zero. -/
def zeroHash (_ _ : List UInt8) : Vector UInt8 32 := .replicate 32 0

theorem sealed_iff_zero : ∃ text, secretSeal zeroHash [] [] [0x61] secretSealMax = some text ∧
    text.length < secretSealMax ∧ ∀ cap, 1 < cap → secretOpen zeroHash [] [] text cap = .ok [0x61] :=
  (sealed_iff zeroHash [] [] (by decide)).1 [0x61] (by decide) (by decide) (by decide)

/-- The text of a secret of one byte, whose last character has two bits that no byte takes. -/
theorem not_all_opened_sealed : ¬∀ (hmac : (key text : List UInt8) → Vector UInt8 32)
    (key context text : List UInt8) (cap : Nat) (plain : List UInt8), context.length ≤ 255 →
    secretOpen hmac key context text cap = .ok plain →
    secretSeal hmac key context plain secretSealMax = some text := by
  intro all
  have same := all zeroHash [] [] (ascii "~1AAAAAAAAYb") 2 [0x61] (by decide) (by decide +kernel)
  exact absurd same (by decide +kernel)

end RPCortex.Secret
