import Mathlib.Data.Nat.Sqrt
import Mathlib.Data.Nat.Find
import Mathlib.Tactic

/-! SHA-256, `sha256.cpp`, beside the standard: the message is padded, cut into blocks, and the blocks are worked in one
after the other; the constants are the first bits behind the point of roots of primes.  A message that is handed over
in any pieces is hashed as the standard says, and so is the HMAC of a key. -/

namespace RPCortex.Hash

/-! ### The standard -/

/-- The first 64 primes. -/
def primes : List Nat := [
  2, 3, 5, 7, 11, 13, 17, 19, 23, 29, 31, 37, 41, 43, 47, 53, 59, 61, 67, 71, 73, 79, 83, 89, 97, 101, 103, 107, 109, 113,
  127, 131, 137, 139, 149, 151, 157, 163, 167, 173, 179, 181, 191, 193, 197, 199, 211, 223, 227, 229, 233, 239, 241, 251,
  257, 263, 269, 271, 277, 281, 283, 293, 307, 311]

/-- The largest number whose cube is not above `n`. -/
def cubeRoot (n : Nat) : Nat := Nat.findGreatest (fun r => r ^ 3 ≤ n) n

/-- Constant `t`: 32 bits behind the point of the cube root of a prime. -/
def roundConstant (t : Nat) : UInt32 := UInt32.ofNat (cubeRoot (primes.getD t 0 * 2 ^ 96) % 2 ^ 32)

/-- Word `t` of the first hash value: 32 bits behind the point of the square root of a prime. -/
def firstWord (t : Nat) : UInt32 := UInt32.ofNat (Nat.sqrt (primes.getD t 0 * 2 ^ 64) % 2 ^ 32)

/-- The working variables, and a hash value. -/
structure Vars where
  a : UInt32
  b : UInt32
  c : UInt32
  d : UInt32
  e : UInt32
  f : UInt32
  g : UInt32
  h : UInt32
  deriving DecidableEq

def Vars.words (v : Vars) : List UInt32 := [v.a, v.b, v.c, v.d, v.e, v.f, v.g, v.h]

def Vars.add (v w : Vars) : Vars :=
  ⟨v.a + w.a, v.b + w.b, v.c + w.c, v.d + w.d, v.e + w.e, v.f + w.f, v.g + w.g, v.h + w.h⟩

/-- The first hash value. -/
def firstHash : Vars :=
  ⟨firstWord 0, firstWord 1, firstWord 2, firstWord 3, firstWord 4, firstWord 5, firstWord 6, firstWord 7⟩

def rotr (n x : UInt32) : UInt32 := x >>> n ||| x <<< (32 - n)

def bigSigma0 (x : UInt32) : UInt32 := rotr 2 x ^^^ rotr 13 x ^^^ rotr 22 x

def bigSigma1 (x : UInt32) : UInt32 := rotr 6 x ^^^ rotr 11 x ^^^ rotr 25 x

def smallSigma0 (x : UInt32) : UInt32 := rotr 7 x ^^^ rotr 18 x ^^^ x >>> 3

def smallSigma1 (x : UInt32) : UInt32 := rotr 17 x ^^^ rotr 19 x ^^^ x >>> 10

/-- `Ch`. -/
def choose (x y z : UInt32) : UInt32 := (x &&& y) ^^^ (~~~x &&& z)

/-- `Maj`. -/
def majority (x y z : UInt32) : UInt32 := (x &&& y) ^^^ (x &&& z) ^^^ (y &&& z)

/-- Four bytes as a word, the first one highest. -/
def bigEndian (b0 b1 b2 b3 : UInt8) : UInt32 :=
  b0.toUInt32 <<< 24 ||| b1.toUInt32 <<< 16 ||| b2.toUInt32 <<< 8 ||| b3.toUInt32

/-- Word `t` of a block. -/
def wordOf (block : List UInt8) (t : Nat) : UInt32 :=
  bigEndian (block.getD (4 * t) 0) (block.getD (4 * t + 1) 0) (block.getD (4 * t + 2) 0) (block.getD (4 * t + 3) 0)

/-- The message schedule. -/
def schedule (block : List UInt8) (t : Nat) : UInt32 :=
  if t < 16 then wordOf block t
  else smallSigma1 (schedule block (t - 2)) + schedule block (t - 7) + smallSigma0 (schedule block (t - 15)) +
    schedule block (t - 16)

/-- Round `t`, with a word of the schedule. -/
def round (t : Nat) (w : UInt32) (v : Vars) : Vars :=
  let t1 := v.h + bigSigma1 v.e + choose v.e v.f v.g + roundConstant t + w
  let t2 := bigSigma0 v.a + majority v.a v.b v.c
  ⟨t1 + t2, v.a, v.b, v.c, v.d + t1, v.e, v.f, v.g⟩

/-- A block is worked into a hash value. -/
def compress (value : Vars) (block : List UInt8) : Vars :=
  ((List.range 64).foldl (fun v t => round t (schedule block t) v) value).add value

/-- The 64 bits of a length, the highest byte first. -/
def lengthBytes (n : Nat) : List UInt8 := (List.range 8).map fun k => UInt8.ofNat (n / 2 ^ (8 * (7 - k)))

/-- The padded message: a one bit, the fewest zeros that lead to 64 bits less than whole blocks, and its length. -/
def pad (m : List UInt8) : List UInt8 :=
  m ++ 0x80 :: List.replicate ((119 - m.length % 64) % 64) 0 ++ lengthBytes (8 * m.length)

def block (bytes : List UInt8) (i : Nat) : List UInt8 := (bytes.drop (64 * i)).take 64

/-- The hash value of the first `n` blocks. -/
def chain (bytes : List UInt8) (n : Nat) : Vars :=
  (List.range n).foldl (fun value i => compress value (block bytes i)) firstHash

/-- The bytes of a hash value. -/
def digestBytes (value : Vars) : List UInt8 :=
  value.words.flatMap fun w : UInt32 => [(w >>> 24).toUInt8, (w >>> 16).toUInt8, (w >>> 8).toUInt8, w.toUInt8]

/-- The digest of a message. -/
def digest (m : List UInt8) : List UInt8 := digestBytes (chain (pad m) ((pad m).length / 64))

/-- A key for HMAC: hashed if it is longer than a block, and zeros behind. -/
def keyBlock (key : List UInt8) : List UInt8 :=
  let key := if 64 < key.length then digest key else key
  key ++ List.replicate (64 - key.length) 0

/-- HMAC with this hash. -/
def hmac (key text : List UInt8) : List UInt8 :=
  digest ((keyBlock key).map (· ^^^ 0x5C) ++ digest ((keyBlock key).map (· ^^^ 0x36) ++ text))

/-! ### The code -/

/-- `K`. -/
def kTable : List UInt32 := [
  0x428a2f98, 0x71374491, 0xb5c0fbcf, 0xe9b5dba5, 0x3956c25b, 0x59f111f1, 0x923f82a4, 0xab1c5ed5,
  0xd807aa98, 0x12835b01, 0x243185be, 0x550c7dc3, 0x72be5d74, 0x80deb1fe, 0x9bdc06a7, 0xc19bf174,
  0xe49b69c1, 0xefbe4786, 0x0fc19dc6, 0x240ca1cc, 0x2de92c6f, 0x4a7484aa, 0x5cb0a9dc, 0x76f988da,
  0x983e5152, 0xa831c66d, 0xb00327c8, 0xbf597fc7, 0xc6e00bf3, 0xd5a79147, 0x06ca6351, 0x14292967,
  0x27b70a85, 0x2e1b2138, 0x4d2c6dfc, 0x53380d13, 0x650a7354, 0x766a0abb, 0x81c2c92e, 0x92722c85,
  0xa2bfe8a1, 0xa81a664b, 0xc24b8b70, 0xc76c51a3, 0xd192e819, 0xd6990624, 0xf40e3585, 0x106aa070,
  0x19a4c116, 0x1e376c08, 0x2748774c, 0x34b0bcb5, 0x391c0cb3, 0x4ed8aa4a, 0x5b9cca4f, 0x682e6ff3,
  0x748f82ee, 0x78a5636f, 0x84c87814, 0x8cc70208, 0x90befffa, 0xa4506ceb, 0xbef9a3f7, 0xc67178f2]

def ror (x n : UInt32) : UInt32 := x >>> n ||| x <<< (32 - n)

/-- The words of the schedule that `transform` adds behind the ones it has. -/
def expand : (left : Nat) → (w : List UInt32) → List UInt32
  | 0, w => w
  | left + 1, w =>
    let i := w.length
    let s0 := ror (w.getD (i - 15) 0) 7 ^^^ ror (w.getD (i - 15) 0) 18 ^^^ w.getD (i - 15) 0 >>> 3
    let s1 := ror (w.getD (i - 2) 0) 17 ^^^ ror (w.getD (i - 2) 0) 19 ^^^ w.getD (i - 2) 0 >>> 10
    expand left (w ++ [w.getD (i - 16) 0 + s0 + w.getD (i - 7) 0 + s1])

/-- A pass of the second loop of `transform`. -/
def transformRound (w : List UInt32) (v : Vars) (i : Nat) : Vars :=
  let s1 := ror v.e 6 ^^^ ror v.e 11 ^^^ ror v.e 25
  let ch := (v.e &&& v.f) ^^^ (~~~v.e &&& v.g)
  let t1 := v.h + s1 + ch + kTable.getD i 0 + w.getD i 0
  let s0 := ror v.a 2 ^^^ ror v.a 13 ^^^ ror v.a 22
  let maj := (v.a &&& v.b) ^^^ (v.a &&& v.c) ^^^ (v.b &&& v.c)
  let t2 := s0 + maj
  { h := v.g, g := v.f, f := v.e, e := v.d + t1, d := v.c, c := v.b, b := v.a, a := t1 + t2 }

/-- `transform`, of the state and a block. -/
def transform (state : Vars) (p : List UInt8) : Vars :=
  let w := expand 48 ((List.range 16).map fun i =>
    (p.getD (i * 4) 0).toUInt32 <<< 24 ||| (p.getD (i * 4 + 1) 0).toUInt32 <<< 16 |||
      (p.getD (i * 4 + 2) 0).toUInt32 <<< 8 ||| (p.getD (i * 4 + 3) 0).toUInt32)
  state.add ((List.range 64).foldl (transformRound w) state)

/-- `Sha256Ctx`; the buffer is never full between two bytes. -/
structure Sha256Ctx where
  state : Vars
  bitlen : UInt64
  buf : List UInt8
  buflen : Nat
  size : buf.length = 64
  within : buflen < 64

/-- `sha256_init`, over what the buffer holds. -/
def sha256Init (buf : List UInt8) (size : buf.length = 64) : Sha256Ctx where
  state := ⟨0x6a09e667, 0xbb67ae85, 0x3c6ef372, 0xa54ff53a, 0x510e527f, 0x9b05688c, 0x1f83d9ab, 0x5be0cd19⟩
  bitlen := 0
  buf := buf
  buflen := 0
  size := size
  within := by decide

/-- A byte of `sha256_update`. -/
def updateByte (c : Sha256Ctx) (b : UInt8) : Sha256Ctx :=
  if full : c.buflen + 1 = 64 then
    { state := transform c.state (c.buf.set c.buflen b)
      bitlen := c.bitlen + 512
      buf := c.buf.set c.buflen b
      buflen := 0
      size := by rw [List.length_set, c.size]
      within := by decide }
  else
    { c with
      buf := c.buf.set c.buflen b
      buflen := c.buflen + 1
      size := by rw [List.length_set, c.size]
      within := by have := c.within; omega }

/-- `sha256_update`. -/
def sha256Update (c : Sha256Ctx) (data : List UInt8) : Sha256Ctx := data.foldl updateByte c

/-- The bytes `f 0`, `f 1` and so on, written from place `i` on. -/
def writeFrom (f : Nat → UInt8) (i n : Nat) (buf : List UInt8) : List UInt8 :=
  (List.range n).foldl (fun buf k => buf.set (i + k) (f k)) buf

/-- `sha256_final`: the state and the bytes of the digest. -/
def sha256Final (c : Sha256Ctx) : List UInt8 :=
  let bitlen := c.bitlen + UInt64.ofNat c.buflen * 8
  let buf := c.buf.set c.buflen 0x80
  let i := c.buflen + 1
  let (state, buf, i) :=
    if 56 < i then
      let buf := writeFrom (fun _ => 0) i (64 - i) buf
      (transform c.state buf, buf, 0)
    else (c.state, buf, i)
  let buf := writeFrom (fun _ => 0) i (56 - i) buf
  let buf := writeFrom (fun k => (bitlen >>> UInt64.ofNat ((7 - k) * 8)).toUInt8) 56 8 buf
  digestBytes (transform state buf)

/-- What a buffer on the stack holds. -/
abbrev Buffer : Type := { buf : List UInt8 // buf.length = 64 }

/-- `sha256`. -/
def sha256 (stack : Buffer) (data : List UInt8) : List UInt8 :=
  sha256Final (sha256Update (sha256Init stack.1 stack.2) data)

/-- `hmac_sha256`, with what the contexts of its hashes find in their buffers. -/
def hmacSha256 (stack stack' stack'' : Buffer) (key msg : List UInt8) : List UInt8 :=
  let k := if 64 < key.length then sha256 stack key ++ List.replicate 32 0
    else key ++ List.replicate (64 - key.length) 0
  let inner := sha256Final (sha256Update (sha256Update (sha256Init stack'.1 stack'.2) (k.map (· ^^^ 0x36))) msg)
  sha256Final (sha256Update (sha256Update (sha256Init stack''.1 stack''.2) (k.map (· ^^^ 0x5C))) inner)

/-! ### Constants -/

theorem cubeRoot_eq {n r : Nat} (le : r ^ 3 ≤ n) (lt : n < (r + 1) ^ 3) : cubeRoot n = r := by
  have small : r ≤ n := (Nat.le_self_pow (by decide) r).trans le
  apply (Nat.findGreatest_eq_iff).mpr
  refine ⟨small, fun _ => le, fun s above _ => Nat.not_le.mpr ?_⟩
  exact lt.trans_le (Nat.pow_le_pow_left above 3)

theorem roundConstant_eq {t : Nat} (small : t < 64) : roundConstant t = kTable.getD t 0 := by
  have roots : ∀ t : Fin 64, ∃ q < 8, (2 ^ 32 * q + (kTable.getD t 0).toNat) ^ 3 ≤ primes.getD t 0 * 2 ^ 96 ∧
      primes.getD t 0 * 2 ^ 96 < (2 ^ 32 * q + (kTable.getD t 0).toNat + 1) ^ 3 := by decide +kernel
  obtain ⟨q, -, le, lt⟩ := roots ⟨t, small⟩
  dsimp only at le lt
  rw [roundConstant, cubeRoot_eq le lt, Nat.mul_add_mod, Nat.mod_eq_of_lt (UInt32.toNat_lt _), UInt32.ofNat_toNat]

theorem firstWord_eq {t q : Nat} {v : UInt32}
    (le : (2 ^ 32 * q + v.toNat) * (2 ^ 32 * q + v.toNat) ≤ primes.getD t 0 * 2 ^ 64)
    (lt : primes.getD t 0 * 2 ^ 64 < (2 ^ 32 * q + v.toNat + 1) * (2 ^ 32 * q + v.toNat + 1)) : firstWord t = v := by
  rw [firstWord, ← Nat.eq_sqrt.mpr ⟨le, lt⟩, Nat.mul_add_mod, Nat.mod_eq_of_lt (UInt32.toNat_lt _), UInt32.ofNat_toNat]

theorem firstHash_eq (buf : List UInt8) (size : buf.length = 64) : firstHash = (sha256Init buf size).state := by
  rw [firstHash, sha256Init, @firstWord_eq 0 1 0x6a09e667 (by decide) (by decide),
    @firstWord_eq 1 1 0xbb67ae85 (by decide) (by decide), @firstWord_eq 2 2 0x3c6ef372 (by decide) (by decide),
    @firstWord_eq 3 2 0xa54ff53a (by decide) (by decide), @firstWord_eq 4 3 0x510e527f (by decide) (by decide),
    @firstWord_eq 5 3 0x9b05688c (by decide) (by decide), @firstWord_eq 6 4 0x1f83d9ab (by decide) (by decide),
    @firstWord_eq 7 4 0x5be0cd19 (by decide) (by decide)]

/-! ### A block -/

theorem schedule_next {m : List UInt8} {t : Nat} (late : 16 ≤ t) : schedule m t =
    schedule m (t - 16) + smallSigma0 (schedule m (t - 15)) + schedule m (t - 7) + smallSigma1 (schedule m (t - 2)) := by
  rw [schedule, if_neg (Nat.not_lt.mpr late)]
  ac_rfl

theorem expand_eq {m : List UInt8} {left i : Nat} (late : 16 ≤ i) :
    expand left ((List.range i).map (schedule m)) = (List.range (i + left)).map (schedule m) := by
  induction left generalizing i with
  | zero => rfl
  | succ left ih =>
    have at_ : ∀ j < i, ((List.range i).map (schedule m)).getD j 0 = schedule m j := fun j lt => by
      rw [List.getD_eq_getElem?_getD, List.getElem?_map, List.getElem?_range lt]
      rfl
    rw [expand, List.length_map, List.length_range]
    rw [at_ _ (by omega), at_ _ (by omega), at_ _ (by omega), at_ _ (by omega)]
    have next : (List.range i).map (schedule m) ++ [schedule m i] = (List.range (i + 1)).map (schedule m) := by
      rw [List.range_succ, List.map_append, List.map_singleton]
    have word := @schedule_next m i late
    unfold smallSigma0 smallSigma1 rotr at word
    unfold ror
    rw [← word, next, ih (by omega), Nat.add_assoc, Nat.add_comm 1]

theorem Vars.add_comm (v w : Vars) : v.add w = w.add v := by
  unfold Vars.add
  congr 1 <;> exact UInt32.add_comm _ _

theorem transform_eq (state : Vars) (p : List UInt8) : transform state p = compress state p := by
  have first : (List.range 16).map (fun i =>
      (p.getD (i * 4) 0).toUInt32 <<< 24 ||| (p.getD (i * 4 + 1) 0).toUInt32 <<< 16 |||
        (p.getD (i * 4 + 2) 0).toUInt32 <<< 8 ||| (p.getD (i * 4 + 3) 0).toUInt32) =
      (List.range 16).map (schedule p) := by
    apply List.map_congr_left
    intro t mem
    rw [schedule, if_pos (List.mem_range.mp mem), wordOf, bigEndian, Nat.mul_comm]
  have same : ∀ v, (List.range 64).foldl (transformRound ((List.range 64).map (schedule p))) v =
      (List.range 64).foldl (fun v t => round t (schedule p t) v) v := by
    intro v
    apply List.foldl_ext
    intro v t mem
    have lt := List.mem_range.mp mem
    have word : ((List.range 64).map (schedule p)).getD t 0 = schedule p t := by
      rw [List.getD_eq_getElem?_getD, List.getElem?_map, List.getElem?_range lt]
      rfl
    rw [transformRound, word, ← roundConstant_eq lt]
    rfl
  rw [transform, first, expand_eq (le_refl 16), compress, Vars.add_comm]
  exact congrArg (Vars.add · state) (same state)

/-! ### Pieces of a message -/

variable {c : Sha256Ctx} {m : List UInt8}

theorem block_append {x : List UInt8} {i : Nat} (inside : 64 * i + 64 ≤ m.length) : block (m ++ x) i = block m i := by
  rw [block, block, List.drop_append_of_le_length (by omega),
    List.take_append_of_le_length (by rw [List.length_drop]; omega)]

theorem chain_succ {bytes : List UInt8} {n : Nat} : chain bytes (n + 1) = compress (chain bytes n) (block bytes n) := by
  rw [chain, List.range_succ, List.foldl_append]
  rfl

theorem chain_append {x : List UInt8} {n : Nat} (inside : 64 * n ≤ m.length) : chain (m ++ x) n = chain m n := by
  induction n with
  | zero => rw [chain, chain, List.range_zero, List.foldl_nil, List.foldl_nil]
  | succ n ih => rw [chain_succ, chain_succ, ih (by omega), block_append (by omega)]

/-- A context that has taken the message `m`: its whole blocks are worked in, and the buffer begins with the rest. -/
structure Taken (m : List UInt8) (c : Sha256Ctx) : Prop where
  state : c.state = chain m (m.length / 64)
  bitlen : c.bitlen = UInt64.ofNat (512 * (m.length / 64))
  buflen : c.buflen = m.length % 64
  buf : c.buf.take c.buflen = m.drop (64 * (m.length / 64))

theorem taken_init (stack : Buffer) : Taken [] (sha256Init stack.1 stack.2) where
  state := (firstHash_eq stack.1 stack.2).symm
  bitlen := rfl
  buflen := rfl
  buf := rfl

/-- The buffer with a byte behind the rest. -/
theorem take_set_rest (taken : Taken m c) (b : UInt8) :
    (c.buf.set c.buflen b).take (c.buflen + 1) = (m ++ [b]).drop (64 * (m.length / 64)) := by
  have inside : c.buflen < c.buf.length := by rw [c.size]; exact c.within
  rw [List.take_add_one, List.take_set_of_le (Nat.le_refl _), List.getElem?_set_self inside, taken.buf,
    List.drop_append_of_le_length (by omega)]
  rfl

theorem Taken.updateByte (taken : Taken m c) (b : UInt8) : Taken (m ++ [b]) (updateByte c b) := by
  have rest := take_set_rest taken b
  have count := taken.buflen
  have within := c.within
  have split := Nat.div_add_mod m.length 64
  unfold Hash.updateByte
  by_cases full : c.buflen + 1 = 64
  · rw [dif_pos full]
    have whole : (c.buf.set c.buflen b).take 64 = c.buf.set c.buflen b := by
      rw [List.take_of_length_le (by rw [List.length_set, c.size])]
    have blocks : (m ++ [b]).length / 64 = m.length / 64 + 1 := by
      rw [List.length_append, List.length_singleton]
      omega
    rw [full, whole] at rest
    constructor
    · show transform c.state (c.buf.set c.buflen b) = _
      have last : block (m ++ [b]) (m.length / 64) = c.buf.set c.buflen b := by
        rw [block, ← rest, List.take_of_length_le (by rw [List.length_set, c.size])]
      rw [transform_eq, taken.state, blocks, chain_succ, chain_append (by omega), last]
    · show c.bitlen + 512 = _
      rw [taken.bitlen, blocks, Nat.mul_succ, UInt64.ofNat_add]
      rfl
    · show 0 = _
      rw [List.length_append, List.length_singleton]
      omega
    · show List.take 0 _ = _
      rw [List.take_zero, blocks, List.drop_eq_nil_of_le]
      rw [List.length_append, List.length_singleton]
      omega
  · rw [dif_neg full]
    have blocks : (m ++ [b]).length / 64 = m.length / 64 := by
      rw [List.length_append, List.length_singleton]
      omega
    constructor
    · show c.state = _
      rw [taken.state, blocks, chain_append (by omega)]
    · show c.bitlen = _
      rw [taken.bitlen, blocks]
    · show c.buflen + 1 = _
      rw [List.length_append, List.length_singleton]
      omega
    · show List.take (c.buflen + 1) (c.buf.set c.buflen b) = _
      rw [rest, blocks]

theorem Taken.update (taken : Taken m c) (data : List UInt8) : Taken (m ++ data) (sha256Update c data) := by
  induction data generalizing m c with
  | nil =>
    rw [List.append_nil]
    exact taken
  | cons b data ih =>
    have := ih (taken.updateByte b)
    rw [List.append_assoc] at this
    exact this

/-- However a message is split. -/
theorem Taken.updates (taken : Taken m c) (pieces : List (List UInt8)) :
    Taken (m ++ pieces.flatten) (pieces.foldl sha256Update c) := by
  induction pieces generalizing m c with
  | nil =>
    rw [List.flatten_nil, List.append_nil]
    exact taken
  | cons piece pieces ih =>
    have := ih (taken.update piece)
    rw [List.append_assoc] at this
    exact this

/-! ### The end of a message -/

theorem writeFrom_eq {f : Nat → UInt8} {i n : Nat} {buf : List UInt8} (fits : i + n ≤ buf.length) :
    writeFrom f i n buf = buf.take i ++ (List.range n).map f ++ buf.drop (i + n) := by
  induction n with
  | zero => rw [writeFrom, List.range_zero, List.map_nil, List.append_nil, Nat.add_zero, List.take_append_drop]; rfl
  | succ n ih =>
    have before : (buf.take i ++ (List.range n).map f).length = i + n := by
      rw [List.length_append, List.length_take, List.length_map, List.length_range]
      omega
    have step : writeFrom f i (n + 1) buf = (writeFrom f i n buf).set (i + n) (f n) := by
      rw [writeFrom, List.range_succ, List.foldl_append]
      rfl
    rw [step, ih (by omega), List.set_append_right _ _ (by omega), before, Nat.sub_self,
      List.drop_eq_getElem_cons (by omega : i + n < buf.length), List.set_cons_zero, List.range_succ, List.map_append,
      List.map_singleton, ← List.append_assoc, List.append_assoc _ [f n]]
    rfl

theorem lengthBytes_eq {n : Nat} :
    ((List.range 8).map fun k => (UInt64.ofNat n >>> UInt64.ofNat ((7 - k) * 8)).toUInt8) = lengthBytes n := by
  apply List.map_congr_left
  intro k mem
  have lt := List.mem_range.mp mem
  have shift : (UInt64.ofNat ((7 - k) * 8)).toNat % 64 = 8 * (7 - k) := by
    rw [UInt64.toNat_ofNat_of_lt' (by unfold UInt64.size; omega)]
    omega
  rw [← UInt8.toNat_inj, UInt64.toNat_toUInt8, UInt64.toNat_shiftRight, shift, Nat.shiftRight_eq_div_pow,
    UInt64.toNat_ofNat', UInt8.toNat_ofNat']
  -- the 64 bits of the length hold the byte
  have split : 2 ^ 64 = 2 ^ (8 * (7 - k)) * 2 ^ (64 - 8 * (7 - k)) := by
    rw [← Nat.pow_add]
    congr 1
    omega
  have byte : 2 ^ (64 - 8 * (7 - k)) = 2 ^ 8 * 2 ^ (56 - 8 * (7 - k)) := by
    rw [← Nat.pow_add]
    congr 1
    omega
  rw [split, Nat.mod_mul_right_div_self, byte, Nat.mod_mul_right_mod]

theorem chain_last {q : Nat} {x : List UInt8} (whole : m.length = 64 * q) (one : x.length = 64) :
    chain (m ++ x) (q + 1) = compress (chain m q) x := by
  have last : block (m ++ x) q = x := by
    rw [block, ← whole, List.drop_left, List.take_of_length_le (by omega)]
  rw [chain_succ, chain_append (by omega), last]

/-- The last block: what there is, zeros and the length. -/
theorem lastBlock_eq {n i : Nat} {buf : List UInt8} (size : buf.length = 64) (room : i ≤ 56) :
    writeFrom (fun k => (UInt64.ofNat n >>> UInt64.ofNat ((7 - k) * 8)).toUInt8) 56 8
      (writeFrom (fun _ => 0) i (56 - i) buf) = buf.take i ++ List.replicate (56 - i) 0 ++ lengthBytes n := by
  have zeros : (List.range (56 - i)).map (fun _ => (0 : UInt8)) = List.replicate (56 - i) 0 := by
    rw [List.map_const', List.length_range]
  have front : (buf.take i ++ List.replicate (56 - i) 0).length = 56 := by
    rw [List.length_append, List.length_take, List.length_replicate]
    omega
  have all : (buf.take i ++ List.replicate (56 - i) 0 ++ buf.drop (i + (56 - i))).length = 64 := by
    rw [List.length_append, front, List.length_drop]
    omega
  rw [@writeFrom_eq _ i _ _ (by omega), zeros, writeFrom_eq (by rw [all]), lengthBytes_eq,
    List.take_append_of_le_length (by rw [front]), List.take_of_length_le (by rw [front]),
    List.drop_eq_nil_of_le (by rw [all]), List.append_nil]

theorem sha256Final_eq (taken : Taken m c) : sha256Final c = digest m := by
  have count := taken.buflen
  have within := c.within
  have split := Nat.div_add_mod m.length 64
  obtain ⟨q, isQ⟩ : ∃ q, q = m.length / 64 := ⟨_, rfl⟩
  obtain ⟨buf, isBuf⟩ : ∃ buf, buf = c.buf.set c.buflen 0x80 := ⟨_, rfl⟩
  have size : buf.length = 64 := by rw [isBuf, List.length_set, c.size]
  have bits : c.bitlen + UInt64.ofNat c.buflen * 8 = UInt64.ofNat (8 * m.length) := by
    show c.bitlen + UInt64.ofNat c.buflen * UInt64.ofNat 8 = _
    rw [taken.bitlen, ← UInt64.ofNat_mul, ← UInt64.ofNat_add]
    congr 1
    omega
  -- what the buffer begins with, behind the whole blocks of the message
  have begins : buf.take (c.buflen + 1) = m.drop (64 * q) ++ [0x80] := by
    rw [isBuf, take_set_rest taken, isQ, List.drop_append_of_le_length (by omega)]
  have front : (m.take (64 * q)).length = 64 * q := by
    rw [List.length_take]
    omega
  have state : c.state = chain (m.take (64 * q)) q := by
    have cut := List.take_append_drop (64 * q) m
    rw [taken.state, ← isQ, ← @chain_append (m.take (64 * q)) (m.drop (64 * q)) q (by omega), cut]
  have eight : (lengthBytes (8 * m.length)).length = 8 := by
    rw [lengthBytes, List.length_map, List.length_range]
  have whole : pad m = m.take (64 * q) ++ (buf.take (c.buflen + 1) ++
      List.replicate ((119 - m.length % 64) % 64) 0 ++ lengthBytes (8 * m.length)) := by
    have cut := List.take_append_drop (64 * q) m
    rw [begins, pad]
    generalize (119 - m.length % 64) % 64 = k
    calc m ++ 0x80 :: List.replicate k 0 ++ lengthBytes (8 * m.length)
        = m.take (64 * q) ++ m.drop (64 * q) ++ 0x80 :: List.replicate k 0 ++ lengthBytes (8 * m.length) := by rw [cut]
      _ = _ := by simp only [List.append_assoc, List.cons_append, List.nil_append]
  unfold sha256Final digest
  dsimp only
  rw [bits, ← isBuf]
  congr 1
  by_cases long : 56 < c.buflen + 1
  · have zeros : (119 - m.length % 64) % 64 = (64 - (c.buflen + 1)) + 56 := by omega
    obtain ⟨first, isFirst⟩ : ∃ first, first = buf.take (c.buflen + 1) ++ List.replicate (64 - (c.buflen + 1)) 0 :=
      ⟨_, rfl⟩
    have full : first.length = 64 := by
      rw [isFirst, List.length_append, List.length_take, List.length_replicate]
      omega
    have written : writeFrom (fun _ => 0) (c.buflen + 1) (64 - (c.buflen + 1)) buf = first := by
      rw [writeFrom_eq (by omega), List.map_const', List.length_range, List.drop_eq_nil_of_le (by omega),
        List.append_nil, isFirst]
    rw [if_pos long]
    dsimp only
    rw [written, lastBlock_eq full (Nat.zero_le 56), List.take_zero, List.nil_append]
    have last : (List.replicate (56 - 0) 0 ++ lengthBytes (8 * m.length)).length = 64 := by
      rw [List.length_append, List.length_replicate, eight]
    have padded : pad m = m.take (64 * q) ++ first ++ (List.replicate (56 - 0) 0 ++ lengthBytes (8 * m.length)) := by
      rw [whole, zeros, List.replicate_add, isFirst]
      simp only [List.append_assoc]
    have blocks : (pad m).length / 64 = q + 1 + 1 := by
      rw [padded, List.length_append, List.length_append, front, full, last]
      omega
    rw [blocks, padded, chain_last (by rw [List.length_append, front, full]; omega) last,
      chain_last front full, transform_eq, transform_eq, state]
  · have zeros : (119 - m.length % 64) % 64 = 56 - (c.buflen + 1) := by omega
    rw [if_neg long]
    dsimp only
    rw [lastBlock_eq size (by omega)]
    have last : (buf.take (c.buflen + 1) ++ List.replicate (56 - (c.buflen + 1)) 0 ++
        lengthBytes (8 * m.length)).length = 64 := by
      rw [List.length_append, List.length_append, List.length_take, List.length_replicate, eight]
      omega
    rw [zeros] at whole
    have blocks : (pad m).length / 64 = q + 1 := by
      rw [whole, List.length_append, front, last]
      omega
    rw [blocks, whole, chain_last front last, transform_eq, state]

theorem sha256_eq (stack : Buffer) : sha256 stack m = digest m := by
  have taken := (taken_init stack).update m
  rw [List.nil_append] at taken
  exact sha256Final_eq taken

theorem hmacSha256_eq (stack stack' stack'' : Buffer) (key msg : List UInt8) :
    hmacSha256 stack stack' stack'' key msg = hmac key msg := by
  have hashed : ∀ (stack : Buffer) (x y : List UInt8),
      sha256Final (sha256Update (sha256Update (sha256Init stack.1 stack.2) x) y) = digest (x ++ y) := fun stack x y => by
    have taken := ((taken_init stack).update x).update y
    rw [List.nil_append] at taken
    exact sha256Final_eq taken
  have size : ∀ m, (digest m).length = 32 := fun m => rfl
  have k : (if 64 < key.length then sha256 stack key ++ List.replicate 32 0
      else key ++ List.replicate (64 - key.length) 0) = keyBlock key := by
    unfold keyBlock
    split
    · rw [sha256_eq]
      dsimp only
      rw [size]
    · rfl
  rw [hmacSha256, k, hashed, hashed, hmac]

/-- A message that is handed over in any pieces is hashed as the standard says, and HMAC is that of the standard. -/
theorem sha256_streams (stack : Buffer) (pieces : List (List UInt8)) (stack' stack'' : Buffer) (key msg : List UInt8) :
    sha256Final (pieces.foldl sha256Update (sha256Init stack.1 stack.2)) = digest pieces.flatten ∧
      hmacSha256 stack stack' stack'' key msg = hmac key msg := by
  refine ⟨?_, hmacSha256_eq stack stack' stack'' key msg⟩
  have taken := (taken_init stack).updates pieces
  rw [List.nil_append] at taken
  exact sha256Final_eq taken

example : (sha256 ⟨List.replicate 64 0xA5, rfl⟩ [0x61, 0x62, 0x63]).take 4 = [0xBA, 0x78, 0x16, 0xBF] := by decide +kernel

end RPCortex.Hash
