import RPCortex.Lib.Run
import RPCortex.Lib.Text
import RPCortex.Lib.Bytes

/-! `pkgindex.cpp`: the index of installed packages, a line `name,version` for each, in a buffer
that a NUL ends. -/

namespace RPCortex.Package

open Lib

/-- `IDX_BUF`. -/
def idxBuf : Nat := 2048

/-- `line_is`. -/
def lineIs (line name : List UInt8) : Bool := (name ++ [0x2C]).isPrefixOf line

/-- `pkgindex_remove`. -/
def pkgindexRemove (buf name : List UInt8) : List UInt8 :=
  let lines := (splitLines 0x0A (cstr buf)).filter fun line => !lineIs line name
  let text := unlines 0x0A lines
  -- a last line without its line end stays without it
  match (splitLines 0x0A (cstr buf)).getLast? with
  | none => text
  | some last =>
    if (cstr buf).getLast? = some 0x0A ∨ lineIs last name then text else text.dropLast

/-- `pkgindex_add`. -/
def pkgindexAdd (buf name version : List UInt8) : List UInt8 :=
  let text := pkgindexRemove buf name
  let cut := text ≠ [] ∧ text.getLast? ≠ some 0x0A
  if cut ∧ idxBuf ≤ text.length + 1 then text
  else
    let text := if cut then text ++ [0x0A] else text
    let line := name ++ [0x2C] ++ version ++ [0x0A]
    if idxBuf - text.length ≤ line.length then text else text ++ line

/-- `pkgindex_walk`: the names and versions. -/
def pkgindexWalk (buf : List UInt8) : List (List UInt8 × List UInt8) :=
  ((splitLines 0x0A (cstr buf)).filter fun line => line ≠ [] ∧ line.head? ≠ some 0x23).map
    fun line => (cutAt 0x2C line).getD (line, ascii "?")

/-- A letter in lower case. -/
def lower (c : UInt8) : UInt8 := if 0x41 ≤ c ∧ c ≤ 0x5A then c + 32 else c

/-- `pkg_installed_version` from the text of the index. -/
def versionIn (buf name : List UInt8) : Option (List UInt8) :=
  ((pkgindexWalk buf).find? fun e => e.1.map lower = name.map lower).map Prod.snd

example : versionIn (pkgindexAdd (ascii "d1,0.9\nd1x,2\n") (ascii "d1") (ascii "1.0")) (ascii "D1") =
    some (ascii "1.0") := by decide

end RPCortex.Package
