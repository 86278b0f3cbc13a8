import Mathlib

/-! Bytes in memory.  A memory is a function from addresses to bytes and `window m off n` is what
`n` bytes of it hold from `off` on.  A `Codec` lays a value out in a fixed number of bytes; words
are little-endian and a structure is the pair of its fields, in order.  `store` writes bytes to a
memory.  `alignDown` and `alignUp` round 32-bit words as the usual mask expressions do. -/

namespace RPCortex.Lib

/-! ### Windows -/

/-- The `n` bytes of `m` from `off` on. -/
def window (m : Nat → UInt8) (off n : Nat) : List UInt8 := (List.range n).map fun i => m (off + i)

section Window

variable {m m' : Nat → UInt8} {off n k : Nat}

@[simp] theorem length_window : (window m off n).length = n := by simp [window]

theorem getElem_window {i : Nat} (h : i < (window m off n).length) :
    (window m off n)[i] = m (off + i) := by
  simp [window]

theorem window_congr (h : ∀ i, i < n → m (off + i) = m' (off + i)) :
    window m off n = window m' off n :=
  List.map_congr_left fun i hi => h i (List.mem_range.mp hi)

/-- A window holds `bytes` when each of its addresses does. -/
theorem window_eq {bytes : List UInt8} (h : ∀ i (hi : i < bytes.length), m (off + i) = bytes[i]) :
    window m off bytes.length = bytes := by
  apply List.ext_getElem
  · simp
  · intro i _ hi
    rw [getElem_window]
    exact h i hi

theorem window_add : window m off (n + k) = window m off n ++ window m (off + n) k := by
  unfold window
  rw [List.range_add, List.map_append, List.map_map]
  congr 1
  apply List.map_congr_left
  intro i _
  simp [Nat.add_assoc]

theorem take_window (h : k ≤ n) : (window m off n).take k = window m off k := by
  obtain ⟨d, rfl⟩ := Nat.exists_eq_add_of_le h
  rw [window_add, List.take_left' length_window]

theorem drop_window (h : k ≤ n) : (window m off n).drop k = window m (off + k) (n - k) := by
  obtain ⟨d, rfl⟩ := Nat.exists_eq_add_of_le h
  rw [window_add, List.drop_left' length_window, Nat.add_sub_cancel_left]

/-- A window inside a window. -/
theorem window_shift : window (fun i => m (off + i)) n k = window m (off + n) k := by
  simp [window, Nat.add_assoc]

/-- A window of a memory that starts with the bytes of a list. -/
theorem window_list {l : List UInt8} {d : UInt8} (h : off + n ≤ l.length) :
    window (fun i => l.getD i d) off n = (l.drop off).take n := by
  apply List.ext_getElem
  · simp
    omega
  · intro i hi _
    rw [length_window] at hi
    rw [getElem_window, List.getElem_take, List.getElem_drop, List.getD_eq_getElem]

end Window

/-- A C string: the bytes before the first NUL. -/
def cstr (bytes : List UInt8) : List UInt8 := bytes.takeWhile (· ≠ 0)

/-- A list without a NUL is the string that it holds. -/
theorem cstr_of_notMem {bytes : List UInt8} (h : 0 ∉ bytes) : cstr bytes = bytes := by
  rw [cstr, List.takeWhile_eq_self_iff]
  intro b hb
  simp only [ne_eq, decide_eq_true_eq]
  rintro rfl
  exact h hb

theorem zero_notMem_cstr (bytes : List UInt8) : 0 ∉ cstr bytes := by
  intro h
  have := List.mem_takeWhile_imp h
  simp at this

/-- A `const char *`: the bytes before its NUL. -/
@[ext]
structure CString where
  bytes : List UInt8
  noNul : 0 ∉ bytes
  deriving DecidableEq

/-- The string in a buffer. -/
def CString.ofBuffer (bytes : List UInt8) : CString := ⟨cstr bytes, zero_notMem_cstr bytes⟩

theorem CString.ofBuffer_bytes (s : CString) : CString.ofBuffer s.bytes = s :=
  CString.ext (cstr_of_notMem s.noNul)

/-! ### Stores -/

/-- The memory `m` with `bytes` from `off` on. -/
def store (m : Nat → UInt8) (off : Nat) (bytes : List UInt8) : Nat → UInt8 := fun a =>
  if off ≤ a then (bytes[a - off]?).getD (m a) else m a

section Store

variable {m : Nat → UInt8} {off n : Nat} {bytes : List UInt8}

theorem store_outside {a : Nat} (h : a < off ∨ off + bytes.length ≤ a) :
    store m off bytes a = m a := by
  unfold store
  split
  · rw [List.getElem?_eq_none (by omega)]
    rfl
  · rfl

theorem store_inside {i : Nat} (h : i < bytes.length) : store m off bytes (off + i) = bytes[i] := by
  rw [store, if_pos (by omega), Nat.add_sub_cancel_left, List.getElem?_eq_getElem h]
  rfl

theorem window_store_same : window (store m off bytes) off bytes.length = bytes :=
  window_eq fun _ hi => store_inside hi

theorem window_store_outside {k : Nat} (h : k + n ≤ off ∨ off + bytes.length ≤ k) :
    window (store m off bytes) k n = window m k n :=
  window_congr fun i hi => store_outside (by omega)

end Store

/-! ### Little-endian words -/

/-- The `w` little-endian bytes of `n`. -/
def leEncode : Nat → Nat → List UInt8
  | 0, _ => []
  | w + 1, n => UInt8.ofNat n :: leEncode w (n / 256)

/-- The number whose little-endian bytes are given. -/
def leDecode : List UInt8 → Nat
  | [] => 0
  | b :: bs => b.toNat + 256 * leDecode bs

@[simp] theorem length_leEncode (w n : Nat) : (leEncode w n).length = w := by
  induction w generalizing n with
  | zero => rfl
  | succ w ih => simp [leEncode, ih]

theorem leDecode_leEncode (w n : Nat) : leDecode (leEncode w n) = n % 256 ^ w := by
  induction w generalizing n with
  | zero => simp [leEncode, leDecode, Nat.mod_one]
  | succ w ih =>
    have pow : 256 ^ (w + 1) = 256 * 256 ^ w := Nat.pow_succ'
    have byte : (UInt8.ofNat n).toNat = n % 256 := UInt8.toNat_ofNat'
    rw [leEncode, leDecode, ih, byte, pow, Nat.mod_mul]

theorem leDecode_lt (bs : List UInt8) : leDecode bs < 256 ^ bs.length := by
  induction bs with
  | nil => simp [leDecode]
  | cons b bs ih =>
    have := b.toNat_lt
    simp only [leDecode, List.length_cons, Nat.pow_succ]
    omega

/-! ### Codecs -/

/-- A layout of `α` in `size` bytes; `decode` reads the front of what it is given. -/
structure Codec (α : Type*) where
  size : Nat
  encode : α → List UInt8
  decode : List UInt8 → α
  length_encode : ∀ a, (encode a).length = size
  decode_append : ∀ a rest, decode (encode a ++ rest) = a

namespace Codec

variable {α β γ : Type*}

attribute [simp] length_encode decode_append

@[simp] theorem decode_encode (c : Codec α) (a : α) : c.decode (c.encode a) = a := by
  simpa using c.decode_append a []

def u8 : Codec UInt8 where
  size := 1
  encode x := [x]
  decode l := l.headD 0
  length_encode _ := rfl
  decode_append _ _ := rfl

def u16 : Codec UInt16 where
  size := 2
  encode x := leEncode 2 x.toNat
  decode l := UInt16.ofNat (leDecode (l.take 2))
  length_encode _ := length_leEncode 2 _
  decode_append x rest := by
    have lt : x.toNat < 256 ^ 2 := x.toNat_lt
    rw [List.take_left' (length_leEncode 2 _), leDecode_leEncode, Nat.mod_eq_of_lt lt,
      UInt16.ofNat_toNat]

def u32 : Codec UInt32 where
  size := 4
  encode x := leEncode 4 x.toNat
  decode l := UInt32.ofNat (leDecode (l.take 4))
  length_encode _ := length_leEncode 4 _
  decode_append x rest := by
    have lt : x.toNat < 256 ^ 4 := x.toNat_lt
    rw [List.take_left' (length_leEncode 4 _), leDecode_leEncode, Nat.mod_eq_of_lt lt,
      UInt32.ofNat_toNat]

/-- An array of `n` bytes. -/
def bytes (n : Nat) : Codec (Vector UInt8 n) where
  size := n
  encode v := v.toList
  decode l := Vector.ofFn fun i => l.getD i 0
  length_encode v := by simp
  decode_append v rest := by
    ext i hi
    rw [Vector.getElem_ofFn, List.getD_eq_getElem?_getD, List.getElem?_append_left (by simpa)]
    simp [hi]

/-- `n` bytes that no field owns. -/
def pad (n : Nat) (b : UInt8) : Codec Unit where
  size := n
  encode _ := List.replicate n b
  decode _ := ()
  length_encode _ := List.length_replicate
  decode_append _ _ := rfl

/-- One value after the other. -/
def pair (c : Codec α) (d : Codec β) : Codec (α × β) where
  size := c.size + d.size
  encode p := c.encode p.1 ++ d.encode p.2
  decode l := (c.decode l, d.decode (l.drop c.size))
  length_encode p := by simp
  decode_append p rest := by
    rw [List.append_assoc, decode_append, List.drop_left' (c.length_encode _), decode_append]

/-- The same bytes, read as another type. -/
def map (c : Codec α) (f : α → β) (g : β → α) (h : ∀ b, f (g b) = b) : Codec β where
  size := c.size
  encode b := c.encode (g b)
  decode l := f (c.decode l)
  length_encode b := c.length_encode _
  decode_append b rest := by rw [decode_append, h]

/-- The bytes of the elements of `l`, one after the other. -/
def encodeAll (c : Codec α) (l : List α) : List UInt8 := l.flatMap c.encode

theorem length_encodeAll (c : Codec α) (l : List α) :
    (c.encodeAll l).length = c.size * l.length := by
  induction l with
  | nil => rfl
  | cons a l ih =>
    simp only [encodeAll, List.flatMap_cons, List.length_append, length_encode] at ih ⊢
    rw [ih, List.length_cons, Nat.mul_succ, Nat.add_comm]

/-- The value at `off` in memory. -/
def read (c : Codec α) (m : Nat → UInt8) (off : Nat) : α := c.decode (window m off c.size)

theorem read_of_window (c : Codec α) {m : Nat → UInt8} {off : Nat} {a : α}
    (h : window m off c.size = c.encode a) : c.read m off = a := by
  rw [read, h, decode_encode]

theorem read_store_same (c : Codec α) {m : Nat → UInt8} {off : Nat} {a : α} :
    c.read (store m off (c.encode a)) off = a := by
  apply c.read_of_window
  rw [← c.length_encode a, window_store_same]

theorem read_congr (c : Codec α) {m m' : Nat → UInt8} {off : Nat}
    (h : ∀ i, off ≤ i → i < off + c.size → m' i = m i) : c.read m' off = c.read m off := by
  rw [read, read, window_congr fun i hi => h (off + i) (by omega) (by omega)]

/-- The value is laid out at the front of a window. -/
theorem read_of_append (c : Codec α) {m : Nat → UInt8} {off n : Nat} {a : α} {rest : List UInt8}
    (hn : c.size ≤ n) (h : window m off n = c.encode a ++ rest) : c.read m off = a := by
  rw [read, ← take_window hn, h, List.take_left' (c.length_encode a), decode_encode]

/-- The `n` values of an array at `off` in memory. -/
def readAll (c : Codec α) (m : Nat → UInt8) (off n : Nat) : List α :=
  (List.range n).map fun i => c.read m (off + c.size * i)

theorem readAll_succ (c : Codec α) (m : Nat → UInt8) (off n : Nat) :
    c.readAll m off (n + 1) = c.read m off :: c.readAll m (off + c.size) n := by
  unfold readAll
  rw [List.range_succ_eq_map, List.map_cons, List.map_map]
  congr 1
  apply List.map_congr_left
  intro i _
  simp only [Function.comp]
  congr 1
  rw [Nat.mul_succ]
  omega

/-- An array that was encoded reads back. -/
theorem readAll_of_window (c : Codec α) {m : Nat → UInt8} {off : Nat} {l : List α}
    (h : window m off (c.size * l.length) = c.encodeAll l) : c.readAll m off l.length = l := by
  induction l generalizing off with
  | nil => rfl
  | cons a l ih =>
    have split : window m off c.size = c.encode a ∧
        window m (off + c.size) (c.size * l.length) = c.encodeAll l := by
      rw [List.length_cons, Nat.mul_succ, Nat.add_comm, window_add] at h
      exact List.append_inj h (by simp)
    rw [List.length_cons, readAll_succ, c.read_of_window split.1, ih split.2]

end Codec

/-! ### Rounding -/

/-- `v & ~(a - 1)`. -/
def alignDown (v a : UInt32) : UInt32 := v &&& ~~~(a - 1)

/-- `(v + a - 1) & ~(a - 1)`. -/
def alignUp (v a : UInt32) : UInt32 := alignDown (v + a - 1) a

theorem toNat_and_not {w : Nat} (x m : BitVec w) :
    (x &&& ~~~m).toNat = x.toNat - (x.toNat &&& m.toNat) := by
  have disjoint : (x &&& m) &&& (x &&& ~~~m) = 0#w := by
    ext i hi
    simp only [BitVec.getElem_and, BitVec.getElem_not, BitVec.getElem_zero]
    cases m[i] <;> simp
  have split : (x &&& m) + (x &&& ~~~m) = x := by
    rw [BitVec.add_eq_or_of_and_eq_zero _ _ disjoint]
    ext i hi
    simp only [BitVec.getElem_or, BitVec.getElem_and, BitVec.getElem_not]
    cases m[i] <;> simp
  have sum := BitVec.toNat_add_of_and_eq_zero disjoint
  rw [split, BitVec.toNat_and] at sum
  omega

theorem toNat_alignDown_eq (v a : UInt32) :
    (alignDown v a).toNat = v.toNat - (v.toNat &&& (a - 1).toNat) :=
  toNat_and_not v.toBitVec (a - 1).toBitVec

theorem toNat_mask {a : UInt32} (pos : 0 < a.toNat) : (a - 1).toNat = a.toNat - 1 := by
  have one : (1 : UInt32).toNat = 1 := rfl
  have := a.toNat_lt
  rw [UInt32.toNat_sub, one]
  omega

theorem toNat_alignDown (v : UInt32) {a : UInt32} {k : Nat} (ha : a.toNat = 2 ^ k) :
    (alignDown v a).toNat = v.toNat / 2 ^ k * 2 ^ k := by
  have pos : 0 < a.toNat := by rw [ha]; exact Nat.two_pow_pos k
  have split := Nat.div_add_mod' v.toNat (2 ^ k)
  rw [toNat_alignDown_eq, toNat_mask pos, ha, Nat.and_two_pow_sub_one_eq_mod]
  omega

/-- Rounding up, when the sum does not wrap. -/
theorem toNat_alignUp {v a : UInt32} {k : Nat} (ha : a.toNat = 2 ^ k)
    (h : v.toNat + (2 ^ k - 1) < 2 ^ 32) :
    (alignUp v a).toNat = (v.toNat + (2 ^ k - 1)) / 2 ^ k * 2 ^ k := by
  rw [alignUp, toNat_alignDown _ ha]
  congr 2
  have pos : 0 < 2 ^ k := Nat.two_pow_pos k
  rw [UInt32.toNat_sub, UInt32.toNat_add, ha]
  have : (1 : UInt32).toNat = 1 := rfl
  omega

/-- The mask expression of `alignUp` on unbounded numbers. -/
def roundUp (v a : Nat) : Nat := v + (a - 1) - ((v + (a - 1)) &&& (a - 1))

theorem le_roundUp (v a : Nat) : v ≤ roundUp v a := by
  have mask : (v + (a - 1)) &&& (a - 1) ≤ a - 1 := Nat.and_le_right
  unfold roundUp
  omega

/-- Rounding up by any alignment, when the sum does not wrap. -/
theorem toNat_alignUp_eq {v a : UInt32} (pos : 0 < a.toNat)
    (h : v.toNat + (a.toNat - 1) < 2 ^ 32) : (alignUp v a).toNat = roundUp v.toNat a.toNat := by
  have one : (1 : UInt32).toNat = 1 := rfl
  have sum : (v + a - 1).toNat = v.toNat + (a.toNat - 1) := by
    rw [UInt32.toNat_sub, UInt32.toNat_add, one]
    omega
  rw [alignUp, toNat_alignDown_eq, toNat_mask pos, sum]
  rfl

end RPCortex.Lib
