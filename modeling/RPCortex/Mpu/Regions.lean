import RPCortex.Lib.Bytes

/-! Memory protection, `mpu.cpp`: the registers of a region on both architectures, what a core reads from them, and the
plan for a block that becomes a region. -/

namespace RPCortex.Mpu

open Lib

/-- `MpuPerm`. -/
inductive MpuPerm
  | noAccess
  | roExec
  | rwNoexec
  deriving DecidableEq

/-! ### ARMv8-M -/

/-- `MPU_V8_GRAIN`. -/
def mpuV8Grain : UInt32 := 32

structure MpuV8Region where
  rbar : UInt32
  rlar : UInt32
  deriving DecidableEq

/-- `v8_perm_bits`: AP and XN. -/
def v8PermBits : MpuPerm → UInt32 × UInt32
  | .noAccess => (0b10, 1)
  | .roExec => (0b11, 0)
  | .rwNoexec => (0b01, 1)

/-- `mpu_v8_encode`; `V8_SH_NONE` and `V8_ATTR_INDEX` are zero. -/
def mpuV8Encode (base size : UInt32) (perm : MpuPerm) : Option MpuV8Region :=
  if size = 0 then none
  else if base % mpuV8Grain ≠ 0 then none
  else if size % mpuV8Grain ≠ 0 then none
  else if base + size < base then none
  else some {
    rbar := alignDown base mpuV8Grain ||| (0 : UInt32) <<< 3 ||| (v8PermBits perm).1 <<< 1 ||| (v8PermBits perm).2
    rlar := alignDown (base + size - 1) mpuV8Grain ||| (0 : UInt32) <<< 1 ||| 1 }

/-! ### ARMv6-M -/

/-- `MPU_V6_MIN_SIZE`. -/
def mpuV6MinSize : UInt32 := 32

/-- `V6_MEM_ATTRS`. -/
def v6MemAttrs : UInt32 := (0 : UInt32) <<< 19 ||| (1 : UInt32) <<< 18 ||| (1 : UInt32) <<< 17 ||| (0 : UInt32) <<< 16

structure MpuV6Region where
  rbar : UInt32
  rasr : UInt32
  deriving DecidableEq

/-- `v6_perm_bits`: AP and XN. -/
def v6PermBits : MpuPerm → UInt32 × UInt32
  | .noAccess => (0b000, 1)
  | .roExec => (0b110, 0)
  | .rwNoexec => (0b011, 1)

/-- The loop of `log2_exact`; a bit is found in 32 passes. -/
def log2From (v : UInt32) : (fuel : Nat) → (n : UInt32) → UInt32
  | 0, n => n
  | fuel + 1, n => if v >>> n ≠ 1 then log2From v fuel (n + 1) else n

/-- `log2_exact`. -/
def log2Exact (v : UInt32) : UInt32 := if v = 0 ∨ v &&& (v - 1) ≠ 0 then 32 else log2From v 32 0

/-- `mpu_v6_encode`. -/
def mpuV6Encode (base size : UInt32) (region : UInt8) (perm : MpuPerm) : Option MpuV6Region :=
  if 7 < region then none
  else if size < mpuV6MinSize then none
  else if log2Exact size = 32 then none
  else if base &&& (size - 1) ≠ 0 then none
  else if base + size < base then none
  else some {
    rbar := base ||| (1 : UInt32) <<< 4 ||| region.toUInt32
    rasr := (1 : UInt32) ||| (log2Exact size - 1) <<< (1 : UInt32) ||| v6MemAttrs ||| (v6PermBits perm).1 <<< 24 |||
      (v6PermBits perm).2 <<< 28 }

/-! ### Sizing -/

/-- `mpu_align_up`. -/
def mpuAlignUp (v align : UInt32) : UInt32 :=
  if align = 0 ∨ align &&& (align - 1) ≠ 0 then v
  else if v + (align - 1) < v then v
  else alignDown (v + (align - 1)) align

structure MpuBlockPlan where
  allocBytes : UInt32
  align : UInt32
  regionBytes : UInt32
  deriving DecidableEq

/-- `mpu_v8_plan_block`. -/
def mpuV8PlanBlock (want : UInt32) : Option MpuBlockPlan :=
  if want = 0 then none
  else
    let size := mpuAlignUp want mpuV8Grain
    if size < want then none
    else if 0xFFFFFFFF - mpuV8Grain < size then none
    else some { align := mpuV8Grain, regionBytes := size, allocBytes := size + (mpuV8Grain - 1) }

/-- The loop of `mpu_v6_plan_block`; a size is doubled 26 times at most. -/
def v6SizeFrom (want : UInt32) : (fuel : Nat) → (size : UInt32) → Option UInt32
  | 0, _ => none
  | fuel + 1, size =>
    if size < want then if 0x40000000 < size then none else v6SizeFrom want fuel (size <<< 1) else some size

/-- `mpu_v6_plan_block`. -/
def mpuV6PlanBlock (want : UInt32) : Option MpuBlockPlan :=
  if want = 0 then none
  else
    (v6SizeFrom want 32 mpuV6MinSize).bind fun size =>
      if size + (size - 1) < size then none
      else some { align := size, regionBytes := size, allocBytes := size + (size - 1) }

/-! ### What a core reads -/

/-- What code of one kind may do with the data of a region. -/
inductive Rights
  | none
  | read
  | readWrite
  deriving DecidableEq

/-- What a region permits. -/
structure Access where
  privileged : Rights
  user : Rights
  execute : Bool
  deriving DecidableEq

/-- The bytes from `first` on, before `stop`. -/
structure Region where
  first : Nat
  stop : Nat
  access : Access
  deriving DecidableEq

/-- AP and XN of ARMv8-M. -/
def v8Access (ap xn : UInt32) : Access :=
  let execute := xn = 0
  if ap = 0b00 then ⟨.readWrite, .none, execute⟩
  else if ap = 0b01 then ⟨.readWrite, .readWrite, execute⟩
  else if ap = 0b10 then ⟨.read, .none, execute⟩
  else ⟨.read, .read, execute⟩

/-- ARMv8-M: BASE is bits 31 to 5 of RBAR, AP bits 2 and 1, XN bit 0; LIMIT is bits 31 to 5 of RLAR and EN bit 0.  The
region ends with the granule of its limit. -/
def v8Decode (r : MpuV8Region) : Option Region :=
  if r.rlar &&& 1 = 0 then none
  else some {
    first := r.rbar.toNat / 32 * 32
    stop := r.rlar.toNat / 32 * 32 + 32
    access := v8Access ((r.rbar >>> 1) &&& 3) (r.rbar &&& 1) }

/-- AP and XN of ARMv6-M; one value is reserved. -/
def v6Access (ap xn : UInt32) : Option Access :=
  let execute := xn = 0
  if ap = 0b000 then some ⟨.none, .none, execute⟩
  else if ap = 0b001 then some ⟨.readWrite, .none, execute⟩
  else if ap = 0b010 then some ⟨.readWrite, .read, execute⟩
  else if ap = 0b011 then some ⟨.readWrite, .readWrite, execute⟩
  else if ap = 0b100 then none
  else if ap = 0b101 then some ⟨.read, .none, execute⟩
  else some ⟨.read, .read, execute⟩

/-- The SIZE field of RASR. -/
def sizeField (rasr : UInt32) : Nat := ((rasr >>> 1) &&& 31).toNat

/-- ARMv6-M: ADDR is in bits 31 to 8 of RBAR, VALID is bit 4 and REGION bits 3 to 0; of RASR, XN is bit 28, AP bits 26
to 24, SIZE bits 5 to 1 and ENABLE bit 0.  A region has `2 ^ (SIZE + 1)` bytes from a multiple of that on, and sizes
below 256 bytes are reserved.  The number of the region comes first. -/
def v6Decode (r : MpuV6Region) : Option (Nat × Region) :=
  if r.rasr &&& 1 = 0 ∨ (r.rbar >>> 4) &&& 1 = 0 ∨ sizeField r.rasr < 7 then none
  else (v6Access ((r.rasr >>> 24) &&& 7) ((r.rasr >>> 28) &&& 1)).map fun access =>
    ((r.rbar &&& 15).toNat, {
      first := r.rbar.toNat / 2 ^ (sizeField r.rasr + 1) * 2 ^ (sizeField r.rasr + 1)
      stop := r.rbar.toNat / 2 ^ (sizeField r.rasr + 1) * 2 ^ (sizeField r.rasr + 1) + 2 ^ (sizeField r.rasr + 1)
      access := access })

/-- What a permission is on ARMv8-M, where a guard can be read by privileged code. -/
def MpuPerm.onV8 : MpuPerm → Access
  | .noAccess => ⟨.read, .none, false⟩
  | .roExec => ⟨.read, .read, true⟩
  | .rwNoexec => ⟨.readWrite, .readWrite, false⟩

/-- What a permission is on ARMv6-M. -/
def MpuPerm.onV6 : MpuPerm → Access
  | .noAccess => ⟨.none, .none, false⟩
  | .roExec => ⟨.read, .read, true⟩
  | .rwNoexec => ⟨.readWrite, .readWrite, false⟩

/-! ### Powers of two -/

variable {base size p v align want : UInt32} {perm : MpuPerm} {region : UInt8} {k : Nat}

theorem toNat_pos (some_ : v ≠ 0) : 0 < v.toNat :=
  Nat.pos_of_ne_zero fun zero => some_ (UInt32.toNat_inj.mp zero)

theorem pow_lt (is : v.toNat = 2 ^ k) : k < 32 := by
  apply (Nat.pow_lt_pow_iff_right (by decide : 1 < 2)).mp
  rw [← is]
  exact v.toNat_lt

theorem power_iff : ¬(v = 0 ∨ v &&& (v - 1) ≠ 0) ↔ ∃ k, v.toNat = 2 ^ k := by
  have zero_iff : v = 0 ↔ v.toNat = 0 := UInt32.toNat_inj.symm
  have mask : v ≠ 0 → ((v &&& (v - 1) = 0) ↔ v.toNat &&& (v.toNat - 1) = 0) := fun some_ => by
    rw [← UInt32.toNat_inj, UInt32.toNat_and, toNat_mask (toNat_pos some_)]
    rfl
  rw [not_or, not_not]
  constructor
  · rintro ⟨some_, none_⟩
    exact Nat.ne_zero_and_sub_one_eq_zero_iff_isPowerOfTwo.mp ⟨(toNat_pos some_).ne', (mask some_).mp none_⟩
  · intro power
    have both := Nat.ne_zero_and_sub_one_eq_zero_iff_isPowerOfTwo.mpr power
    have some_ : v ≠ 0 := fun zero => both.1 (zero_iff.mp zero)
    exact ⟨some_, (mask some_).mpr both.2⟩

theorem log2From_eq (is : v.toNat = 2 ^ k) {fuel n : Nat} (reached : n ≤ k) (enough : k - n < fuel) :
    log2From v fuel (UInt32.ofNat n) = UInt32.ofNat k := by
  have small := pow_lt is
  induction fuel generalizing n with
  | zero => omega
  | succ fuel ih =>
    have shifted : (v >>> UInt32.ofNat n).toNat = 2 ^ (k - n) := by
      rw [UInt32.toNat_shiftRight, UInt32.toNat_ofNat_of_lt' (Nat.lt_of_le_of_lt reached (by unfold UInt32.size; omega)), is,
        Nat.mod_eq_of_lt (by omega), Nat.shiftRight_eq_div_pow, Nat.pow_div reached (by decide)]
    rw [log2From]
    by_cases here : n = k
    · have one : v >>> UInt32.ofNat n = 1 := by
        rw [← UInt32.toNat_inj, shifted, here, Nat.sub_self]
        rfl
      rw [one, if_neg (not_not.mpr rfl), here]
    · have more : v >>> UInt32.ofNat n ≠ 1 := by
        intro one
        rw [one] at shifted
        have two : 2 ^ 1 ≤ 2 ^ (k - n) := Nat.pow_le_pow_right (by decide) (by omega)
        have one_ : (1 : UInt32).toNat = 1 := rfl
        omega
      rw [if_pos more]
      have next : UInt32.ofNat n + 1 = UInt32.ofNat (n + 1) := by
        rw [UInt32.ofNat_add]
        rfl
      rw [next]
      exact ih (by omega) (by omega)

theorem log2Exact_eq (is : v.toNat = 2 ^ k) : log2Exact v = UInt32.ofNat k := by
  have small := pow_lt is
  rw [log2Exact, if_neg (power_iff.mpr ⟨k, is⟩)]
  exact @log2From_eq v k is 32 0 (Nat.zero_le k) (by omega)

theorem log2Exact_none (no : ¬∃ k, v.toNat = 2 ^ k) : log2Exact v = 32 := by
  rw [log2Exact, if_pos (not_not.mp fun yes => no (power_iff.mp yes))]

/-- A number of low bits beside a multiple. -/
theorem toNat_or {a b : UInt32} (multiple : a.toNat % 2 ^ k = 0) (low : b.toNat < 2 ^ k) :
    (a ||| b).toNat = a.toNat + b.toNat := by
  rw [UInt32.toNat_or]
  conv_lhs => rw [← Nat.div_add_mod a.toNat (2 ^ k), multiple, Nat.add_zero]
  rw [← Nat.two_pow_add_eq_or_of_lt low]
  have := Nat.div_add_mod a.toNat (2 ^ k)
  omega

/-- The low bits of a register. -/
theorem toNat_low {n : Nat} (bits : n < 32) : (v &&& UInt32.ofNat (2 ^ n - 1)).toNat = v.toNat % 2 ^ n := by
  have most : 2 ^ n < 2 ^ 32 := Nat.pow_lt_pow_right (by decide) bits
  rw [UInt32.toNat_and, UInt32.toNat_ofNat_of_lt' (by unfold UInt32.size; omega), Nat.and_two_pow_sub_one_eq_mod]

/-- A field of a register. -/
theorem toNat_field {s n : Nat} (shift : s < 32) (bits : n < 32) :
    ((v >>> UInt32.ofNat s) &&& UInt32.ofNat (2 ^ n - 1)).toNat = v.toNat / 2 ^ s % 2 ^ n := by
  rw [toNat_low bits, UInt32.toNat_shiftRight, UInt32.toNat_ofNat_of_lt' (by unfold UInt32.size; omega),
    Nat.mod_eq_of_lt shift, Nat.shiftRight_eq_div_pow]

/-! ### What is encoded is read back -/

theorem no_wrap (fits : ¬base + size < base) : base.toNat + size.toNat < 2 ^ 32 := by
  rw [UInt32.lt_iff_toNat_lt, UInt32.toNat_add] at fits
  have := base.toNat_lt
  have := size.toNat_lt
  omega

theorem v8Decode_encode {r : MpuV8Region} (encoded : mpuV8Encode base size perm = some r) :
    v8Decode r = some ⟨base.toNat, base.toNat + size.toNat, perm.onV8⟩ := by
  unfold mpuV8Encode at encoded
  split at encoded
  · cases encoded
  rename_i some_
  split at encoded
  · cases encoded
  rename_i onGrain
  split at encoded
  · cases encoded
  rename_i whole
  split at encoded
  · cases encoded
  rename_i fits
  have inside := no_wrap fits
  have grain : mpuV8Grain.toNat = 2 ^ 5 := rfl
  have grain_ : mpuV8Grain.toNat = 32 := rfl
  rw [not_not, ← UInt32.toNat_inj, UInt32.toNat_mod, grain_, UInt32.toNat_zero] at onGrain whole
  have positive := toNat_pos some_
  cases encoded
  -- the low bits of RBAR
  obtain ⟨low, isLow⟩ : ∃ low, low = (v8PermBits perm).1 <<< 1 ||| (v8PermBits perm).2 := ⟨_, rfl⟩
  have small : low.toNat < 2 ^ 3 := by
    rw [isLow]
    cases perm <;> decide
  have granule : (alignDown base mpuV8Grain).toNat = base.toNat := by
    rw [toNat_alignDown base grain]
    omega
  have none_ : (0 : UInt32) <<< 3 = 0 := rfl
  have none' : (0 : UInt32) <<< 1 = 0 := rfl
  have rbar : (alignDown base mpuV8Grain ||| (0 : UInt32) <<< 3 ||| (v8PermBits perm).1 <<< 1 ||| (v8PermBits perm).2).toNat =
      base.toNat + low.toNat := by
    rw [none_, UInt32.or_zero, UInt32.or_assoc, ← isLow, @toNat_or 5 _ _ (by rw [granule]; omega) (by omega), granule]
  have last : (base + size - 1).toNat = base.toNat + size.toNat - 1 := by
    rw [toNat_mask (by rw [UInt32.toNat_add]; omega), UInt32.toNat_add, Nat.mod_eq_of_lt inside]
  have limit : (alignDown (base + size - 1) mpuV8Grain).toNat = (base.toNat + size.toNat - 1) / 2 ^ 5 * 2 ^ 5 := by
    rw [toNat_alignDown _ grain, last]
  have rlar : (alignDown (base + size - 1) mpuV8Grain ||| (0 : UInt32) <<< 1 ||| 1).toNat =
      (base.toNat + size.toNat - 1) / 2 ^ 5 * 2 ^ 5 + 1 := by
    rw [none', UInt32.or_zero, @toNat_or 5 _ _ (by rw [limit]; omega) (by decide), limit]
    rfl
  obtain ⟨b, isB⟩ : ∃ b, b = alignDown base mpuV8Grain ||| (0 : UInt32) <<< 3 ||| (v8PermBits perm).1 <<< 1 |||
    (v8PermBits perm).2 := ⟨_, rfl⟩
  obtain ⟨l, isL⟩ : ∃ l, l = alignDown (base + size - 1) mpuV8Grain ||| (0 : UInt32) <<< 1 ||| 1 := ⟨_, rfl⟩
  rw [← isB] at rbar ⊢
  rw [← isL] at rlar ⊢
  have enabled : l &&& (1 : UInt32) ≠ 0 := by
    intro off
    have bit : (l &&& 1).toNat = _ := @toNat_low l 1 (by decide)
    rw [off, rlar, UInt32.toNat_zero] at bit
    omega
  have ap : (b >>> (1 : UInt32)) &&& (3 : UInt32) = (low >>> (1 : UInt32)) &&& (3 : UInt32) := by
    have field : ((b >>> 1) &&& 3).toNat = _ := @toNat_field b 1 2 (by decide) (by decide)
    have field' : ((low >>> 1) &&& 3).toNat = _ := @toNat_field low 1 2 (by decide) (by decide)
    rw [← UInt32.toNat_inj, field, field', rbar]
    omega
  have xn : b &&& (1 : UInt32) = low &&& (1 : UInt32) := by
    have bit : (b &&& 1).toNat = _ := @toNat_low b 1 (by decide)
    have bit' : (low &&& 1).toNat = _ := @toNat_low low 1 (by decide)
    rw [← UInt32.toNat_inj, bit, bit', rbar]
    omega
  have access : v8Access ((low >>> 1) &&& 3) (low &&& 1) = perm.onV8 := by
    rw [isLow]
    cases perm <;> decide
  rw [v8Decode, if_neg enabled, ap, xn, access, rbar, rlar]
  congr 2 <;> omega

/-- What `mpu_v6_encode` takes. -/
structure V6Takes (base size : UInt32) (region : UInt8) : Prop where
  region_le : region ≤ 7
  least : 32 ≤ size.toNat
  power : ∃ k, size.toNat = 2 ^ k
  aligned : base.toNat % size.toNat = 0
  fits : base.toNat + size.toNat < 2 ^ 32

/-- RASR for `2 ^ k` bytes. -/
def v6Rasr (k : Nat) (perm : MpuPerm) : UInt32 :=
  (1 : UInt32) ||| (UInt32.ofNat k - 1) <<< (1 : UInt32) ||| v6MemAttrs ||| (v6PermBits perm).1 <<< 24 |||
    (v6PermBits perm).2 <<< 28

/-- The registers of a region of ARMv6-M. -/
def v6Registers (base : UInt32) (k : Nat) (region : UInt8) (perm : MpuPerm) : MpuV6Region where
  rbar := base ||| (1 : UInt32) <<< 4 ||| region.toUInt32
  rasr := v6Rasr k perm

theorem mpuV6Encode_eq (is : size.toNat = 2 ^ k) (takes : V6Takes base size region) :
    mpuV6Encode base size region perm = some (v6Registers base k region perm) := by
  have small := pow_lt is
  have least : ¬size < mpuV6MinSize := by
    rw [UInt32.lt_iff_toNat_lt]
    exact Nat.not_lt.mpr takes.least
  have logged : log2Exact size ≠ 32 := by
    rw [log2Exact_eq is]
    intro no
    have := congrArg UInt32.toNat no
    rw [UInt32.toNat_ofNat_of_lt' (by unfold UInt32.size; omega)] at this
    have : (32 : UInt32).toNat = 32 := rfl
    omega
  have aligned : base &&& (size - 1) = 0 := by
    have := takes.aligned
    have positive : 0 < size.toNat := by rw [is]; exact Nat.two_pow_pos k
    rw [← UInt32.toNat_inj, UInt32.toNat_and, toNat_mask positive, is, Nat.and_two_pow_sub_one_eq_mod, ← is, this]
    rfl
  have fits : ¬base + size < base := by
    rw [UInt32.lt_iff_toNat_lt, UInt32.toNat_add, Nat.mod_eq_of_lt takes.fits]
    omega
  rw [mpuV6Encode, if_neg (UInt8.not_lt.mpr takes.region_le), if_neg least, if_neg logged,
    if_neg (not_not.mpr aligned), if_neg fits, log2Exact_eq is]
  rfl

theorem v6Takes_of_encoded {r : MpuV6Region} (encoded : mpuV6Encode base size region perm = some r) :
    V6Takes base size region := by
  unfold mpuV6Encode at encoded
  split at encoded
  · cases encoded
  rename_i number
  split at encoded
  · cases encoded
  rename_i least
  split at encoded
  · cases encoded
  rename_i logged
  split at encoded
  · cases encoded
  rename_i aligned
  split at encoded
  · cases encoded
  rename_i fits
  have power : ∃ k, size.toNat = 2 ^ k := by
    by_contra no
    exact logged (log2Exact_none no)
  obtain ⟨k, is⟩ := power
  refine ⟨UInt8.not_lt.mp number, ?_, ⟨k, is⟩, ?_, no_wrap fits⟩
  · rw [UInt32.lt_iff_toNat_lt] at least
    exact Nat.not_lt.mp least
  · have positive : 0 < size.toNat := by rw [is]; exact Nat.two_pow_pos k
    rw [not_not, ← UInt32.toNat_inj, UInt32.toNat_and, toNat_mask positive, is, Nat.and_two_pow_sub_one_eq_mod] at aligned
    rw [is]
    exact aligned

/-- The fields of RASR, for every size and permission. -/
theorem rasr_fields : ∀ k : Fin 32, 1 ≤ k.val → (v6Rasr k perm &&& 1 ≠ 0 ∧ sizeField (v6Rasr k perm) = k - 1) ∧
    v6Access ((v6Rasr k perm >>> 24) &&& 7) ((v6Rasr k perm >>> 28) &&& 1) = some perm.onV6 := by
  cases perm <;> decide +kernel

theorem v6Decode_registers (is : size.toNat = 2 ^ k) (takes : V6Takes base size region) :
    v6Decode (v6Registers base k region perm) = some (region.toNat, ⟨base.toNat, base.toNat + size.toNat, perm.onV6⟩) ↔
      256 ≤ size.toNat := by
  have small := pow_lt is
  have large : 5 ≤ k := by
    have := takes.least
    rw [is] at this
    exact (Nat.pow_le_pow_iff_right (by decide : 1 < 2)).mp this
  obtain ⟨⟨enabled, field⟩, access⟩ := @rasr_fields perm ⟨k, small⟩ (by show 1 ≤ k; omega)
  have aligned := takes.aligned
  rw [is] at aligned
  have thirty : base.toNat % 32 = 0 := by
    have := Nat.mod_mod_of_dvd base.toNat (Nat.pow_dvd_pow 2 large)
    rw [aligned] at this
    exact this.symm
  have number : region.toUInt32.toNat < 2 ^ 4 := by
    have := UInt8.le_iff_toNat_le.mp takes.region_le
    have seven : (7 : UInt8).toNat = 7 := rfl
    rw [UInt8.toNat_toUInt32]
    omega
  have sixteen : ((1 : UInt32) <<< 4).toNat = 16 := rfl
  have rbar : (v6Registers base k region perm).rbar.toNat = base.toNat + 16 + region.toNat := by
    have low : ((1 : UInt32) <<< 4 ||| region.toUInt32).toNat = 16 + region.toNat := by
      rw [@toNat_or 4 _ _ (by decide) number, sixteen, UInt8.toNat_toUInt32]
    rw [UInt8.toNat_toUInt32] at number
    rw [v6Registers, UInt32.or_assoc, @toNat_or 5 _ _ thirty (by rw [low]; omega), low]
    omega
  rw [UInt8.toNat_toUInt32] at number
  have on : (v6Registers base k region perm).rasr &&& (1 : UInt32) ≠ 0 := enabled
  have size_ : sizeField (v6Registers base k region perm).rasr = k - 1 := field
  have access_ : v6Access (((v6Registers base k region perm).rasr >>> 24) &&& 7)
      (((v6Registers base k region perm).rasr >>> 28) &&& 1) = some perm.onV6 := access
  generalize v6Registers base k region perm = r at *
  have valid : (r.rbar >>> 4) &&& 1 ≠ 0 := by
    intro off
    have bit : ((r.rbar >>> 4) &&& 1).toNat = _ := @toNat_field r.rbar 4 1 (by decide) (by decide)
    rw [off, rbar, UInt32.toNat_zero] at bit
    omega
  have region_ : (r.rbar &&& 15).toNat = region.toNat := by
    have bits : (r.rbar &&& 15).toNat = _ := @toNat_low r.rbar 4 (by decide)
    rw [bits, rbar]
    omega
  rw [v6Decode, size_, access_, region_, Nat.sub_add_cancel (by omega)]
  by_cases reserved : k - 1 < 7
  · rw [if_pos (.inr (.inr reserved))]
    constructor
    · exact fun no => nomatch no
    · intro fits
      have : 2 ^ k ≤ 2 ^ 7 := Nat.pow_le_pow_right (by decide) (by omega)
      omega
  · rw [if_neg (not_or.mpr ⟨on, not_or.mpr ⟨valid, reserved⟩⟩)]
    have big : 2 ^ 8 ≤ 2 ^ k := Nat.pow_le_pow_right (by decide) (by omega)
    have start : r.rbar.toNat / 2 ^ k * 2 ^ k = base.toNat := by
      have split := Nat.div_add_mod base.toNat (2 ^ k)
      rw [aligned, Nat.add_zero] at split
      rw [rbar, Nat.add_assoc, ← split, Nat.mul_add_div (Nat.two_pow_pos k), Nat.div_eq_of_lt (by omega : 16 + region.toNat < 2 ^ k),
        Nat.add_zero, Nat.mul_comm]
    rw [start, is]
    exact ⟨fun _ => by omega, fun _ => rfl⟩


/-! ### What is planned -/

theorem mpuAlignUp_eq (is : align.toNat = 2 ^ k) (fits : v.toNat + (2 ^ k - 1) < 2 ^ 32) :
    (mpuAlignUp v align).toNat = (v.toNat + (2 ^ k - 1)) / 2 ^ k * 2 ^ k := by
  have mask : (align - 1).toNat = 2 ^ k - 1 := by rw [toNat_mask (by rw [is]; exact Nat.two_pow_pos k), is]
  have sum : (v + (align - 1)).toNat = v.toNat + (2 ^ k - 1) := by rw [UInt32.toNat_add, mask, Nat.mod_eq_of_lt fits]
  have up : ¬v + (align - 1) < v := by
    rw [UInt32.lt_iff_toNat_lt, sum]
    omega
  rw [mpuAlignUp, if_neg (power_iff.mpr ⟨k, is⟩), if_neg up, toNat_alignDown _ is, sum]

/-- A block with room for a whole region: `2 ^ k` is its alignment. -/
structure Roomy (want : UInt32) (plan : MpuBlockPlan) (k : Nat) : Prop where
  align : plan.align.toNat = 2 ^ k
  whole : plan.regionBytes.toNat % 2 ^ k = 0
  covers : want.toNat ≤ plan.regionBytes.toNat
  positive : 0 < plan.regionBytes.toNat
  alloc : plan.allocBytes.toNat = plan.regionBytes.toNat + (2 ^ k - 1)

/-- The region of a block is inside of it, and covers what is wanted. -/
structure Placed (want : UInt32) (plan : MpuBlockPlan) (p : UInt32) : Prop where
  from_ : p.toNat ≤ (mpuAlignUp p plan.align).toNat
  to_ : (mpuAlignUp p plan.align).toNat + plan.regionBytes.toNat ≤ p.toNat + plan.allocBytes.toNat
  covers : want.toNat ≤ plan.regionBytes.toNat

theorem Roomy.placed {plan : MpuBlockPlan} (roomy : Roomy want plan k)
    (fits : p.toNat + plan.allocBytes.toNat ≤ 2 ^ 32) :
    Placed want plan p ∧ (mpuAlignUp p plan.align).toNat % 2 ^ k = 0 := by
  have alloc := roomy.alloc
  have positive := roomy.positive
  have pow : 0 < 2 ^ k := Nat.two_pow_pos k
  have start := mpuAlignUp_eq roomy.align (show p.toNat + (2 ^ k - 1) < 2 ^ 32 by omega)
  have split := Nat.div_add_mod' (p.toNat + (2 ^ k - 1)) (2 ^ k)
  have rest := Nat.mod_lt (p.toNat + (2 ^ k - 1)) pow
  refine ⟨⟨by omega, by omega, roomy.covers⟩, ?_⟩
  rw [start]
  exact Nat.mul_mod_left _ _

theorem v8Plan_roomy {plan : MpuBlockPlan} (planned : mpuV8PlanBlock want = some plan) : Roomy want plan 5 := by
  unfold mpuV8PlanBlock at planned
  split at planned
  · cases planned
  rename_i some_
  dsimp only at planned
  split at planned
  · cases planned
  rename_i rounded
  split at planned
  · cases planned
  rename_i small
  have grain : mpuV8Grain.toNat = 2 ^ 5 := rfl
  have most : (0xFFFFFFFF - mpuV8Grain : UInt32).toNat = 4294967263 := rfl
  have less : (mpuV8Grain - 1).toNat = 31 := rfl
  rw [UInt32.lt_iff_toNat_lt, most] at small
  cases planned
  have positive := toNat_pos some_
  -- a size that is rounded past the end is left as it is, and refused
  have fits : want.toNat + (2 ^ 5 - 1) < 2 ^ 32 := by
    by_contra far
    have wraps : want + (mpuV8Grain - 1) < want := by
      rw [UInt32.lt_iff_toNat_lt, UInt32.toNat_add, less]
      have := want.toNat_lt
      omega
    rw [mpuAlignUp, if_neg (power_iff.mpr ⟨5, grain⟩), if_pos wraps] at small
    omega
  have size := mpuAlignUp_eq grain fits
  refine ⟨grain, ?_, ?_, ?_, ?_⟩
  · rw [size]
    exact Nat.mul_mod_left _ _
  · rw [size]
    omega
  · rw [size]
    omega
  · show (mpuAlignUp want mpuV8Grain + (mpuV8Grain - 1)).toNat = (mpuAlignUp want mpuV8Grain).toNat + 31
    rw [UInt32.toNat_add, less, Nat.mod_eq_of_lt (by omega)]

/-- The sizes are doubled until what is wanted fits. -/
theorem v6SizeFrom_spec {fuel : Nat} (is : size.toNat = 2 ^ k) (least : 5 ≤ k) (enough : 32 ≤ fuel + k) {found : UInt32}
    (some_ : v6SizeFrom want fuel size = some found) : want.toNat ≤ found.toNat ∧ ∃ j, 5 ≤ j ∧ found.toNat = 2 ^ j := by
  have small := pow_lt is
  induction fuel generalizing size k with
  | zero => cases some_
  | succ fuel ih =>
    rw [v6SizeFrom] at some_
    split at some_
    · split at some_
      · cases some_
      rename_i low
      have most : (0x40000000 : UInt32).toNat = 2 ^ 30 := rfl
      rw [UInt32.lt_iff_toNat_lt, most, is, Nat.pow_lt_pow_iff_right (by decide)] at low
      have doubled : (size <<< 1).toNat = 2 ^ (k + 1) := by
        have one : (1 : UInt32).toNat % 32 = 1 := rfl
        have fits : 2 ^ (k + 1) < 2 ^ 32 := Nat.pow_lt_pow_right (by decide) (by omega)
        rw [UInt32.toNat_shiftLeft, one, Nat.shiftLeft_eq, is, ← Nat.pow_succ, Nat.mod_eq_of_lt fits]
      exact ih doubled (by omega) (by omega) some_ (by omega)
    · rename_i reached
      cases some_
      rw [UInt32.lt_iff_toNat_lt] at reached
      exact ⟨Nat.not_lt.mp reached, k, least, is⟩

theorem v6Plan_roomy {plan : MpuBlockPlan} (planned : mpuV6PlanBlock want = some plan) :
    ∃ k, 5 ≤ k ∧ plan.regionBytes.toNat = 2 ^ k ∧ Roomy want plan k := by
  unfold mpuV6PlanBlock at planned
  split at planned
  · cases planned
  obtain ⟨size, found, planned⟩ := Option.bind_eq_some_iff.mp planned
  split at planned
  · cases planned
  rename_i fits
  cases planned
  obtain ⟨covers, k, least, is⟩ := v6SizeFrom_spec (show mpuV6MinSize.toNat = 2 ^ 5 from rfl) (le_refl 5) (by decide) found
  have positive : 0 < size.toNat := by rw [is]; exact Nat.two_pow_pos k
  have sum := no_wrap fits
  rw [toNat_mask positive] at sum
  refine ⟨k, least, is, is, ?_, covers, positive, ?_⟩
  · show size.toNat % 2 ^ k = 0
    rw [is, Nat.mod_self]
  · show (size + (size - 1)).toNat = size.toNat + (2 ^ k - 1)
    rw [UInt32.toNat_add, toNat_mask positive, Nat.mod_eq_of_lt sum, is]

/-- Whole granules from a granule on are taken, unless they end at the top. -/
theorem mpuV8Encode_takes (aligned : base.toNat % 32 = 0) (whole : size.toNat % 32 = 0) (positive : 0 < size.toNat)
    (fits : base.toNat + size.toNat < 2 ^ 32) : (mpuV8Encode base size perm).isSome = true := by
  have grain : mpuV8Grain.toNat = 32 := rfl
  have some_ : size ≠ 0 := by
    rintro rfl
    exact absurd positive (by decide)
  have onGrain : base % mpuV8Grain = 0 := by
    rw [← UInt32.toNat_inj, UInt32.toNat_mod, grain, aligned]
    rfl
  have whole_ : size % mpuV8Grain = 0 := by
    rw [← UInt32.toNat_inj, UInt32.toNat_mod, grain, whole]
    rfl
  have up : ¬base + size < base := by
    rw [UInt32.lt_iff_toNat_lt, UInt32.toNat_add, Nat.mod_eq_of_lt fits]
    omega
  rw [mpuV8Encode, if_neg some_, if_neg (not_not.mpr onGrain), if_neg (not_not.mpr whole_), if_neg up]
  rfl

/-- On ARMv8-M a region covers what was asked.  On ARMv6-M it does exactly when no region of less than 256 bytes is
asked for, which the encoder takes although the architecture has none.  The planned regions lie in their blocks, and
are taken unless they end at the top. -/
theorem regions_iff (base size : UInt32) (region : UInt8) (perm : MpuPerm) :
    (∀ r, mpuV8Encode base size perm = some r →
      v8Decode r = some ⟨base.toNat, base.toNat + size.toNat, perm.onV8⟩) ∧
    ((∀ r, mpuV6Encode base size region perm = some r →
        v6Decode r = some (region.toNat, ⟨base.toNat, base.toNat + size.toNat, perm.onV6⟩)) ↔
      ¬(V6Takes base size region ∧ size.toNat < 256)) ∧
    (∀ want plan p, mpuV8PlanBlock want = some plan → p.toNat + plan.allocBytes.toNat ≤ 2 ^ 32 → Placed want plan p ∧
      ((mpuAlignUp p plan.align).toNat + plan.regionBytes.toNat = 2 ^ 32 ∨
        (mpuV8Encode (mpuAlignUp p plan.align) plan.regionBytes perm).isSome = true)) ∧
    (∀ want plan p, mpuV6PlanBlock want = some plan → p.toNat + plan.allocBytes.toNat ≤ 2 ^ 32 → Placed want plan p ∧
      ((mpuAlignUp p plan.align).toNat + plan.regionBytes.toNat = 2 ^ 32 ∨ 7 < region ∨
        (mpuV6Encode (mpuAlignUp p plan.align) plan.regionBytes region perm).isSome = true)) := by
  refine ⟨fun r encoded => v8Decode_encode encoded, ⟨fun exact_ => ?_, fun large r encoded => ?_⟩,
    fun want plan p planned fits => ?_, fun want plan p planned fits => ?_⟩
  · rintro ⟨takes, small⟩
    obtain ⟨k, is⟩ := takes.power
    have read := (v6Decode_registers is takes).mp (exact_ _ (mpuV6Encode_eq is takes))
    omega
  · have takes := v6Takes_of_encoded encoded
    obtain ⟨k, is⟩ := takes.power
    rw [mpuV6Encode_eq is takes] at encoded
    cases encoded
    exact (v6Decode_registers is takes).mpr (Nat.not_lt.mp fun small => large ⟨takes, small⟩)
  · have roomy := v8Plan_roomy planned
    obtain ⟨placed, aligned⟩ := roomy.placed fits
    refine ⟨placed, ?_⟩
    by_cases top : (mpuAlignUp p plan.align).toNat + plan.regionBytes.toNat = 2 ^ 32
    · exact .inl top
    · have inside := placed.to_
      exact .inr (mpuV8Encode_takes aligned roomy.whole roomy.positive (by omega))
  · obtain ⟨k, least, is, roomy⟩ := v6Plan_roomy planned
    obtain ⟨placed, aligned⟩ := roomy.placed fits
    refine ⟨placed, ?_⟩
    by_cases top : (mpuAlignUp p plan.align).toNat + plan.regionBytes.toNat = 2 ^ 32
    · exact .inl top
    by_cases number : 7 < region
    · exact .inr (.inl number)
    have inside := placed.to_
    have large : 2 ^ 5 ≤ 2 ^ k := Nat.pow_le_pow_right (by decide) least
    have takes : V6Takes (mpuAlignUp p plan.align) plan.regionBytes region :=
      ⟨UInt8.not_lt.mp number, by omega, ⟨k, is⟩, by rw [is]; exact aligned, by omega⟩
    rw [mpuV6Encode_eq is takes]
    exact .inr (.inr rfl)

/-- A guard of 32 bytes. -/
theorem guard_not_read : ¬∀ (base size : UInt32) (region : UInt8) (perm : MpuPerm) (r : MpuV6Region),
    mpuV6Encode base size region perm = some r →
      v6Decode r = some (region.toNat, ⟨base.toNat, base.toNat + size.toNat, perm.onV6⟩) := by
  intro all
  have read := all 0x20001020 32 0 .noAccess ⟨0x20001030, 0x10060009⟩ (by decide +kernel)
  exact absurd read (by decide +kernel)

end RPCortex.Mpu
