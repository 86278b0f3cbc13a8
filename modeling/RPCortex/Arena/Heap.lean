import RPCortex.Lib.Bytes
import RPCortex.Lib.Walk

/-! `arena.cpp`: a first-fit allocator whose block headers lie in the memory that it hands out.
Addresses and sizes are 32-bit words and wrap as the machine's do.  A heap keeps, beside the bytes,
the addresses of the words that the allocator wrote, and a walk over the blocks takes fuel. -/

namespace RPCortex.PackageHeap

open Lib

/-- `Arena`: memory that ends before the address space does. -/
structure Arena where
  base : UInt32
  size : UInt32
  within : base.toNat + size.toNat < 2 ^ 32

/-- The bytes of memory, and where words were written. -/
structure Heap where
  bytes : Nat → UInt8
  written : List UInt32

/-- `HDR`. -/
abbrev hdr : UInt32 := 8

namespace Heap

/-- `b->size`. -/
def blockSize (h : Heap) (b : UInt32) : UInt32 := Codec.u32.read h.bytes b.toNat

/-- `b->free`. -/
def blockFree (h : Heap) (b : UInt32) : UInt32 := Codec.u32.read h.bytes (b.toNat + 4)

/-- `b->size = v`. -/
def setSize (h : Heap) (b v : UInt32) : Heap :=
  ⟨store h.bytes b.toNat (Codec.u32.encode v), b :: h.written⟩

/-- `b->free = v`. -/
def setFree (h : Heap) (b v : UInt32) : Heap :=
  ⟨store h.bytes (b.toNat + 4) (Codec.u32.encode v), (b + 4) :: h.written⟩

end Heap

/-- `next`. -/
def next (a : Arena) (h : Heap) (b : UInt32) : Option UInt32 :=
  if b + h.blockSize b < a.base + a.size then some (b + h.blockSize b) else none

theorem toNat_alignDown_le (v a : UInt32) : (alignDown v a).toNat ≤ v.toNat := by
  rw [toNat_alignDown_eq]
  exact Nat.sub_le _ _

/-- `arena_init` of `size` bytes at `base`; a null pointer is 0. -/
def arenaInit (base size : UInt32) (within : base.toNat + size.toNat < 2 ^ 32) (h : Heap) :
    Arena × Heap :=
  if base = 0 ∨ size < hdr + 8 then (⟨base, 0, base.toNat_lt⟩, h)
  else
    (⟨base, alignDown size 8, by have := toNat_alignDown_le size 8; omega⟩,
      (h.setSize base (alignDown size 8)).setFree base 1)

/-- The size of a block for `n` bytes: `(n + HDR + 7u) & ~7u`. -/
def wanted (n : UInt32) : UInt32 := alignDown (n + hdr + 7) 8

/-- Whether a block is free and large enough. -/
def fits (h : Heap) (want b : UInt32) : Bool := h.blockFree b ≠ 0 ∧ want ≤ h.blockSize b

/-- Whether what is left of a block could hold anything. -/
def splits (h : Heap) (want b : UInt32) : Bool := want + hdr + 8 ≤ h.blockSize b

/-- A fitting block is taken, and split when what is left could hold anything. -/
def take (h : Heap) (want b : UInt32) : Heap :=
  if splits h want b then
    let rest := b + want
    let h := h.setSize rest (h.blockSize b - want)
    let h := h.setFree rest 1
    let h := h.setSize b want
    h.setFree b 0
  else h.setFree b 0

/-- `arena_alloc`; `none` inside is the null pointer. -/
def arenaAlloc (fuel : Nat) (a : Arena) (n : UInt32) (h : Heap) : Option (Option UInt32 × Heap) :=
  if a.size = 0 ∨ n = 0 ∨ wanted n < n then some (none, h)
  else
    match search (next a h) (fits h (wanted n)) fuel (some a.base) with
    | none => none
    | some none => some (none, h)
    | some (some b) => some (some (b + hdr), take h (wanted n) b)

/-- The merging loop of `arena_free`: the block takes in those behind it while they are free. -/
def merge (a : Arena) (b : UInt32) : Nat → Heap → Option Heap
  | 0, _ => none
  | fuel + 1, h =>
    match next a h b with
    | none => some h
    | some n =>
      if h.blockFree n = 0 then some h
      else merge a b fuel (h.setSize b (h.blockSize b + h.blockSize n))

theorem merge_succ (a : Arena) (b : UInt32) (fuel : Nat) (h : Heap) : merge a b (fuel + 1) h =
    match next a h b with
    | none => some h
    | some n =>
      if h.blockFree n = 0 then some h
      else merge a b fuel (h.setSize b (h.blockSize b + h.blockSize n)) := rfl

/-- `arena_free`. -/
def arenaFree (fuel : Nat) (a : Arena) (p : UInt32) (h : Heap) : Option Heap :=
  if p = 0 ∨ a.size = 0 ∨ p - hdr < a.base ∨ a.base + a.size ≤ p - hdr then some h
  else
    match search (next a h) (· = p - hdr) fuel (some a.base) with
    | none => none
    | some none => some h
    | some (some b) => if h.blockFree b ≠ 0 then some h else merge a b fuel (h.setFree b 1)

/-- `arena_used`. -/
def arenaUsed (fuel : Nat) (a : Arena) (h : Heap) : Option UInt32 :=
  if a.size = 0 then some 0
  else
    foldWalk (next a h) (fun used b => if h.blockFree b = 0 then used + h.blockSize b else used)
      fuel 0 (some a.base)

/-- `arena_largest`. -/
def arenaLargest (fuel : Nat) (a : Arena) (h : Heap) : Option UInt32 :=
  if a.size = 0 then some 0
  else
    (foldWalk (next a h)
      (fun best b => if h.blockFree b ≠ 0 ∧ best < h.blockSize b then h.blockSize b else best)
      fuel 0 (some a.base)).map fun best => if hdr < best then best - hdr else 0

end RPCortex.PackageHeap
