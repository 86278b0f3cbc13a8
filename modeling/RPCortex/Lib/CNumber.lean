import RPCortex.Lib.Text

/-! The C library's reading of numbers in a string: spaces, a sign, for base 16 perhaps `0x`, and
as many digits as there are, clamped to the range of the result. -/

namespace RPCortex.Lib

/-- `isspace`. -/
def isSpace (c : UInt8) : Bool := c = 0x20 ∨ (0x09 ≤ c ∧ c ≤ 0x0D)

/-- The value of a digit in a base. -/
def digit (base : Nat) (c : UInt8) : Option Nat :=
  let v : Option Nat :=
    if 0x30 ≤ c ∧ c ≤ 0x39 then some (c.toNat - 0x30)
    else if 0x61 ≤ c ∧ c ≤ 0x7A then some (c.toNat - 0x61 + 10)
    else if 0x41 ≤ c ∧ c ≤ 0x5A then some (c.toNat - 0x41 + 10)
    else none
  v.filter (· < base)

/-- The digits at the front of a string. -/
def digits (base : Nat) : List UInt8 → List Nat
  | [] => []
  | c :: rest =>
    match digit base c with
    | none => []
    | some d => d :: digits base rest

/-- The number of a list of digits, the first of them the highest. -/
def ofDigits (base : Nat) (ds : List Nat) : Nat := ds.foldl (fun n d => n * base + d) 0

/-- A sign, and what stands behind it. -/
def signOf : List UInt8 → Bool × List UInt8
  | 0x2D :: rest => (true, rest)
  | 0x2B :: rest => (false, rest)
  | s => (false, s)

/-- A prefix `0x` of a hexadecimal number is passed over. -/
def skipHexPrefix (base : Nat) : List UInt8 → List UInt8
  | 0x30 :: x :: c :: rest =>
    if base = 16 ∧ (x = 0x78 ∨ x = 0x58) ∧ (digit 16 c).isSome then c :: rest
    else 0x30 :: x :: c :: rest
  | s => s

/-- `strtol` and `strtoll` of a string, for a result from `-limit` to `limit - 1`; `none` when no
digits are there. -/
def strtoint (limit base : Nat) (s : List UInt8) : Option Int :=
  let (negative, s) := signOf (s.dropWhile isSpace)
  match digits base (skipHexPrefix base s) with
  | [] => none
  | ds =>
    let n := ofDigits base ds
    some (if negative then -(min n limit : Nat) else (min n (limit - 1) : Nat))

end RPCortex.Lib
