import Mathlib

/-! Cyclic redundancy checks over `ZMod 2`.  The bits of a register are the coefficients of a polynomial of
degree below its width `n`; behind a message it holds the remainder of the message times `X ^ n` by the
generator.  A shift register computes that remainder a bit at a time, from either end of the byte. -/

namespace RPCortex.Lib.Crc

open Polynomial

variable {n : Nat}

/-- The polynomial whose coefficients are the bits of `v`. -/
noncomputable def poly (v : BitVec n) : (ZMod 2)[X] := ofFn n fun i => if v.getLsbD i then 1 else 0

/-- The generator of degree `n` whose other coefficients are the bits of `g`. -/
noncomputable def generator (g : BitVec n) : (ZMod 2)[X] := X ^ n + poly g

/-- The bits of a message, the first one leading. -/
noncomputable def message (bytes : List (BitVec 8)) : (ZMod 2)[X] :=
  bytes.foldl (fun m b => X ^ 8 * m + poly b) 0

theorem message_concat (bytes : List (BitVec 8)) (b : BitVec 8) :
    message (bytes ++ [b]) = X ^ 8 * message bytes + poly b := by
  rw [message, List.foldl_append]
  rfl

/-! ### Polynomials of bits -/

theorem coeff_poly (v : BitVec n) (i : Nat) : (poly v).coeff i = if v.getLsbD i then 1 else 0 := by
  by_cases h : i < n
  · rw [poly, ofFn_coeff_eq_val_of_lt _ h]
  · rw [poly, ofFn_coeff_eq_zero_of_ge _ (Nat.le_of_not_lt h), BitVec.getLsbD_of_ge _ _ (Nat.le_of_not_lt h)]
    rfl

theorem degree_poly_lt (v : BitVec n) : (poly v).degree < n := ofFn_degree_lt _

theorem poly_injective : Function.Injective (poly (n := n)) := by
  intro v u same
  refine BitVec.eq_of_getLsbD_eq fun i _ => ?_
  have bit := congrArg (coeff · i) same
  simp only [coeff_poly] at bit
  cases hv : v.getLsbD i <;> cases hu : u.getLsbD i <;> simp [hv, hu] at bit ⊢

@[simp] theorem poly_zero : poly (0 : BitVec n) = 0 := by
  ext i
  simp [coeff_poly]

theorem poly_xor (v u : BitVec n) : poly (v ^^^ u) = poly v + poly u := by
  ext i
  rw [coeff_add, coeff_poly, coeff_poly, coeff_poly, BitVec.getLsbD_xor]
  cases v.getLsbD i <;> cases u.getLsbD i <;> rfl

theorem poly_twoPow {i : Nat} (inside : i < n) : poly (BitVec.twoPow n i) = X ^ i := by
  ext j
  rw [coeff_poly, coeff_X_pow, BitVec.getLsbD_twoPow]
  by_cases h : i = j
  · simp [h, h ▸ inside]
  · simp [h, Ne.symm h]

/-- A shift to the left multiplies by `X`; the bit that falls out is the one of degree `n`. -/
theorem poly_shiftLeft_one (v : BitVec n) :
    poly (v <<< 1) + (if v.msb then X ^ n else 0) = X * poly v := by
  ext i
  cases i with
  | zero =>
    rw [coeff_add, coeff_poly, coeff_X_mul_zero, BitVec.getLsbD_shiftLeft]
    cases n with
    | zero => simp [BitVec.eq_nil v]
    | succ n => cases v.msb <;> simp
  | succ i =>
    rw [coeff_add, coeff_poly, coeff_X_mul, coeff_poly, BitVec.getLsbD_shiftLeft, Nat.add_sub_cancel]
    rcases Nat.lt_trichotomy (i + 1) n with lt | rfl | gt
    · have : ¬n = i + 1 := by omega
      cases v.msb <;> simp [lt, coeff_X_pow, Ne.symm this]
    · rw [BitVec.msb_eq_getLsbD_last, Nat.add_sub_cancel]
      cases v.getLsbD i <;> simp
    · have : v.getLsbD i = false := BitVec.getLsbD_of_ge _ _ (by omega)
      have : ¬i + 1 = n := by omega
      cases v.msb <;> simp [Nat.not_lt_of_gt gt, coeff_X_pow, *]

/-- A byte at the top of a register. -/
theorem poly_top (wide : 8 ≤ n) (b : BitVec 8) :
    poly (b.setWidth n <<< (n - 8)) = X ^ (n - 8) * poly b := by
  ext i
  simp only [coeff_X_pow_mul', coeff_poly, BitVec.getLsbD_shiftLeft, BitVec.getLsbD_setWidth]
  by_cases top : n - 8 ≤ i
  · by_cases h : i < n
    · simp [top, h, Nat.not_lt_of_le top, show i - (n - 8) < n by omega]
    · simp [h, BitVec.getLsbD_of_ge b (i - (n - 8)) (by omega)]
  · simp [top, Nat.lt_of_not_le top]

theorem monic_generator (g : BitVec n) : (generator g).Monic := monic_X_pow_add (degree_poly_lt g)

theorem degree_generator (g : BitVec n) : (generator g).degree = n := by
  rw [generator, degree_add_eq_left_of_degree_lt, degree_X_pow]
  rw [degree_X_pow]
  exact degree_poly_lt g

/-- A register is a remainder by the generator. -/
theorem poly_mod (g v : BitVec n) : poly v %ₘ generator g = poly v :=
  (modByMonic_eq_self_iff (monic_generator g)).mpr (by rw [degree_generator]; exact degree_poly_lt v)

/-- A factor may be a remainder already. -/
theorem mul_mod_add_mod (g : BitVec n) (a p b : (ZMod 2)[X]) :
    (a * (p %ₘ generator g) + b) %ₘ generator g = (a * p + b) %ₘ generator g := by
  have whole := modByMonic_add_div p (generator g)
  calc (a * (p %ₘ generator g) + b) %ₘ generator g
      = (a * p + b - generator g * (a * (p /ₘ generator g))) %ₘ generator g := by
        congr 1
        linear_combination a * whole
    _ = (a * p + b) %ₘ generator g := by
        rw [sub_modByMonic, self_mul_modByMonic (monic_generator g), sub_zero]

/-! ### The shift register -/

/-- One more bit of a message: what is shifted out is divided by the generator. -/
def shift (g v : BitVec n) : BitVec n := if v.msb then v <<< 1 ^^^ g else v <<< 1

/-- The eight bits of a byte, the highest one first. -/
def feed (g v : BitVec n) (b : BitVec 8) : BitVec n := (shift g)^[8] (v ^^^ b.setWidth n <<< (n - 8))

theorem poly_shift (g v : BitVec n) : poly (shift g v) = X * poly v %ₘ generator g := by
  have shifted := poly_shiftLeft_one v
  refine (div_modByMonic_unique (if v.msb then 1 else 0) _ (monic_generator g) ⟨?_, ?_⟩).2.symm
  · rw [← shifted, shift, generator]
    split
    · rw [poly_xor]
      linear_combination CharTwo.add_self_eq_zero (poly g)
    · rw [mul_zero]
  · rw [degree_generator]
    exact degree_poly_lt _

theorem poly_shift_iterate (g v : BitVec n) (k : Nat) :
    poly ((shift g)^[k] v) = X ^ k * poly v %ₘ generator g := by
  induction k with
  | zero => rw [Function.iterate_zero_apply, pow_zero, one_mul, poly_mod]
  | succ k ih =>
    have more := mul_mod_add_mod g X (X ^ k * poly v) 0
    rw [add_zero, add_zero] at more
    rw [Function.iterate_succ_apply', poly_shift, ih, more, pow_succ', mul_assoc]

/-- One byte behind a message. -/
theorem poly_feed (wide : 8 ≤ n) (g v : BitVec n) (b : BitVec 8) :
    poly (feed g v b) = (X ^ 8 * poly v + X ^ n * poly b) %ₘ generator g := by
  have split : X ^ 8 * X ^ (n - 8) = (X ^ n : (ZMod 2)[X]) := by rw [← pow_add, Nat.add_sub_cancel' wide]
  rw [feed, poly_shift_iterate, poly_xor, poly_top wide, mul_add, ← mul_assoc, split]

/-- The register behind a message: its first value stands over the first bits of the message. -/
theorem poly_foldl_feed (wide : 8 ≤ n) (g v : BitVec n) (bytes : List (BitVec 8)) :
    poly (bytes.foldl (feed g) v) =
      (X ^ (8 * bytes.length) * poly v + X ^ n * message bytes) %ₘ generator g := by
  induction bytes using List.reverseRecOn with
  | nil => simp [message, poly_mod]
  | append_singleton bytes b ih =>
    rw [List.foldl_append, List.foldl_cons, List.foldl_nil, poly_feed wide, ih, mul_mod_add_mod, message_concat,
      List.length_append, List.length_singleton, mul_add_one, pow_add]
    congr 1
    generalize poly v = p, message bytes = m, poly b = q, (X : (ZMod 2)[X]) ^ (8 * bytes.length) = shifts
    ring

/-! ### The register that takes the lowest bit first -/

/-- `shift` with the bits of the register in the other order. -/
def shiftLow (g v : BitVec n) : BitVec n := if v.getLsbD 0 then v >>> 1 ^^^ g else v >>> 1

/-- The eight bits of a byte, the lowest one first. -/
def feedLow (g v : BitVec n) (b : BitVec 8) : BitVec n := (shiftLow g)^[8] (v ^^^ b.setWidth n)

theorem reverse_xor (v u : BitVec n) : (v ^^^ u).reverse = v.reverse ^^^ u.reverse := by
  ext i h
  simp [BitVec.getElem_reverse, BitVec.getMsbD_xor]

theorem reverse_ushiftRight_one (v : BitVec n) : (v >>> 1).reverse = v.reverse <<< 1 := by
  ext i h
  rw [BitVec.getElem_reverse, BitVec.getMsbD_ushiftRight, BitVec.getElem_shiftLeft]
  by_cases first : i < 1
  · simp [first]
  · simp [first, h, BitVec.getElem_reverse]

theorem reverse_setWidth (wide : 8 ≤ n) (b : BitVec 8) :
    (b.setWidth n).reverse = b.reverse.setWidth n <<< (n - 8) := by
  ext i h
  rw [BitVec.getElem_reverse, BitVec.getElem_shiftLeft, BitVec.getMsbD_eq_getLsbD, BitVec.getLsbD_setWidth]
  by_cases top : i < n - 8
  · rw [BitVec.getLsbD_of_ge b (n - 1 - i) (by omega)]
    simp [top]
  · have place : 8 - 1 - (i - (n - 8)) = n - 1 - i := by omega
    rw [BitVec.getElem_setWidth, BitVec.getLsbD_reverse, BitVec.getMsbD_eq_getLsbD, place]
    simp [top, h, show n - 1 - i < n by omega, show i - (n - 8) < 8 by omega]

theorem reverse_shiftLow (g v : BitVec n) : (shiftLow g v).reverse = shift g.reverse v.reverse := by
  rw [shiftLow, shift, BitVec.msb_reverse]
  split
  · rw [reverse_xor, reverse_ushiftRight_one]
  · rw [reverse_ushiftRight_one]

theorem reverse_feedLow (wide : 8 ≤ n) (g v : BitVec n) (b : BitVec 8) :
    (feedLow g v b).reverse = feed g.reverse v.reverse b.reverse := by
  have mirrored : Function.Semiconj BitVec.reverse (shiftLow g) (shift g.reverse) := reverse_shiftLow g
  rw [feedLow, (mirrored.iterate_right 8).eq, reverse_xor, reverse_setWidth wide, feed]

theorem reverse_foldl_feedLow (wide : 8 ≤ n) (g v : BitVec n) (bytes : List (BitVec 8)) :
    (bytes.foldl (feedLow g) v).reverse = (bytes.map BitVec.reverse).foldl (feed g.reverse) v.reverse := by
  induction bytes generalizing v with
  | nil => rfl
  | cons b bytes ih => rw [List.foldl_cons, ih, reverse_feedLow wide, List.map_cons, List.foldl_cons]

/-! ### The two checks in use -/

/-- CRC-16 as a memory card sends it: the remainder by `X ^ 16 + X ^ 12 + X ^ 5 + 1`. -/
def HasCrc16 (data : List UInt8) (crc : UInt16) : Prop :=
  poly crc.toBitVec = X ^ 16 * message (data.map UInt8.toBitVec) %ₘ (X ^ 16 + X ^ 12 + X ^ 5 + 1)

/-- CRC-32 of ISO-HDLC: every byte and the result with the lowest bit first, the first 32 bits of the message
and the result complemented. -/
def HasCrc32 (data : List UInt8) (crc : UInt32) : Prop :=
  poly (~~~crc.toBitVec).reverse =
    (X ^ (8 * data.length) * poly (BitVec.allOnes 32) +
        X ^ 32 * message (data.map fun b => b.toBitVec.reverse)) %ₘ
      (X ^ 32 + X ^ 26 + X ^ 23 + X ^ 22 + X ^ 16 + X ^ 12 + X ^ 11 + X ^ 10 + X ^ 8 + X ^ 7 + X ^ 5 + X ^ 4 +
        X ^ 2 + X + 1)

theorem generator_crc16 : generator 0x1021#16 = X ^ 16 + X ^ 12 + X ^ 5 + 1 := by
  have bits : 0x1021#16 = .twoPow 16 12 ^^^ .twoPow 16 5 ^^^ .twoPow 16 0 := by decide
  rw [generator, bits]
  simp only [poly_xor, poly_twoPow, Nat.reduceLT, pow_zero]
  ring

theorem generator_crc32 : generator 0x04C11DB7#32 =
    X ^ 32 + X ^ 26 + X ^ 23 + X ^ 22 + X ^ 16 + X ^ 12 + X ^ 11 + X ^ 10 + X ^ 8 + X ^ 7 + X ^ 5 + X ^ 4 +
      X ^ 2 + X + 1 := by
  have bits : 0x04C11DB7#32 = .twoPow 32 26 ^^^ .twoPow 32 23 ^^^ .twoPow 32 22 ^^^ .twoPow 32 16 ^^^
      .twoPow 32 12 ^^^ .twoPow 32 11 ^^^ .twoPow 32 10 ^^^ .twoPow 32 8 ^^^ .twoPow 32 7 ^^^ .twoPow 32 5 ^^^
      .twoPow 32 4 ^^^ .twoPow 32 2 ^^^ .twoPow 32 1 ^^^ .twoPow 32 0 := by decide
  rw [generator, bits]
  simp only [poly_xor, poly_twoPow, Nat.reduceLT, pow_zero, pow_one]
  ring

/-- The register from zero computes CRC-16. -/
theorem hasCrc16_iff {data : List UInt8} {crc : UInt16} :
    HasCrc16 data crc ↔ (data.map UInt8.toBitVec).foldl (feed 0x1021#16) 0 = crc.toBitVec := by
  rw [← poly_injective.eq_iff, poly_foldl_feed (by decide), poly_zero, mul_zero, zero_add, generator_crc16]
  exact eq_comm

/-- The register that takes the lowest bit first, from all ones and complemented, computes CRC-32. -/
theorem hasCrc32_iff {data : List UInt8} {crc : UInt32} : HasCrc32 data crc ↔
    ~~~(data.map UInt8.toBitVec).foldl (feedLow 0xEDB88320#32) (BitVec.allOnes 32) = crc.toBitVec := by
  have mirror : (0xEDB88320#32).reverse = 0x04C11DB7#32 := by decide +kernel
  have ones : (BitVec.allOnes 32).reverse = BitVec.allOnes 32 := by decide +kernel
  have register := poly_foldl_feed (by decide) 0x04C11DB7#32 (.allOnes 32)
    ((data.map UInt8.toBitVec).map BitVec.reverse)
  rw [← mirror, ← ones, ← reverse_foldl_feedLow (by decide), mirror, ones, generator_crc32, List.map_map,
    List.length_map] at register
  have mirrored : Function.Injective (BitVec.reverse (w := 32)) :=
    Function.Involutive.injective fun _ => BitVec.reverse_reverse_eq
  rw [HasCrc32, show (data.map fun b => b.toBitVec.reverse) = data.map (BitVec.reverse ∘ UInt8.toBitVec) from rfl,
    ← register, poly_injective.eq_iff, mirrored.eq_iff]
  constructor
  · intro same
    rw [← same, BitVec.not_not]
  · intro same
    rw [← same, BitVec.not_not]

end RPCortex.Lib.Crc
