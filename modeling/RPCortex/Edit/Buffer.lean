import RPCortex.Lib.Run

/-! The editor's text, `linestore.h`, with loading and saving, `editor.cpp`.  A line is a buffer of bytes that
ends at its first zero; lines are in chunks that are allocated when they are first needed. -/

namespace RPCortex.Edit

open Lib

/-- `ED_MAX_LINES`. -/
def edMaxLines : Nat := 400

/-- `ED_MAX_COL`. -/
def edMaxCol : Nat := 200

/-- `LS_LINES_PER_CHUNK`. -/
def lsLinesPerChunk : Nat := 32

/-- `ED_READ_BLOCK`. -/
def edReadBlock : Nat := 2048

/-- The buffer of a line. -/
abbrev Row : Type := Nat → UInt8

/-- The line as a C string. -/
def cstr (row : Row) : List UInt8 := ((List.range edMaxCol).map row).takeWhile (· ≠ 0)

def strlen (row : Row) : Nat := (cstr row).length

/-- `LineStore`: which chunks are there, and the lines. -/
structure LineStore where
  chunk : Nat → Bool
  row : Nat → Row

def LineStore.empty : LineStore := ⟨fun _ => false, fun _ _ => 0⟩

/-- `ls_line` at the growth edge: the store with the line in it.  `room` says whether a chunk can be had. -/
def LineStore.line (ls : LineStore) (i : Nat) (room : Nat → Bool) : Option LineStore :=
  if edMaxLines ≤ i then none
  else
    let c := i / lsLinesPerChunk
    if ls.chunk c then some ls
    else if room c then
      some ⟨upd ls.chunk c true, fun j => if j / lsLinesPerChunk = c then fun _ => 0 else ls.row j⟩
    else none

def LineStore.put (ls : LineStore) (i col : Nat) (c : UInt8) : LineStore :=
  { ls with row := upd ls.row i (upd (ls.row i) col c) }

/-- `Editor`, without what is only shown: the text with its lines in use, the cursor, and the flags. -/
structure Editor where
  ls : LineStore
  count : Nat
  cy : Int
  cx : Int
  top : Int
  left : Int
  dirty : Bool
  truncated : Bool

/-! ### Loading -/

/-- The locals of `ed_load`. -/
structure Load where
  ls : LineStore
  row : Nat
  col : Nat
  oom : Bool
  truncated : Bool

/-- Whether the loops of `ed_load` go on. -/
def Load.goesOn (l : Load) : Bool := !l.oom && l.row < edMaxLines

/-- The body of the inner loop of `ed_load`. -/
def Load.byte (room : Nat → Bool) (l : Load) (c : UInt8) : Load :=
  if !l.goesOn then l
  else if c = 0x0D then l
  else if c = 0x0A then
    let ls := l.ls.put l.row l.col 0
    if l.row + 1 < edMaxLines then
      match ls.line (l.row + 1) room with
      | some ls => { l with ls := ls, row := l.row + 1, col := 0 }
      | none => { l with ls := ls, row := l.row + 1, col := 0, oom := true }
    else { l with ls := ls, row := l.row + 1, col := 0 }
  else if l.col + 1 < edMaxCol then { l with ls := l.ls.put l.row l.col c, col := l.col + 1 }
  else { l with truncated := true }

/-- What the file's `read` hands over at an offset: at most a block, less when it likes, and nothing when it
fails; `read` is the result that it gives. -/
def got (file : List UInt8) (read : Nat → Int) (off : Nat) : List UInt8 :=
  (file.drop off).take (min (read off).toNat edReadBlock)

/-- The outer loop of `ed_load`.  A read that goes on takes a byte at least, so the file's length is enough
fuel. -/
def Load.loop (room : Nat → Bool) (file : List UInt8) (read : Nat → Int) : (fuel off : Nat) → Load → Load
  | 0, _, l => l
  | fuel + 1, off, l =>
    if edMaxLines ≤ l.row then l
    else if got file read off = [] then l
    else
      let l := (got file read off).foldl (Load.byte room) l
      if l.oom then l else Load.loop room file read fuel (off + (got file read off).length) l

/-- The end of `ed_load`. -/
def Load.finish (l : Load) : Editor :=
  let full := l.oom || edMaxLines ≤ l.row
  let row := if full then l.row else l.row + 1
  { ls := if full then l.ls else l.ls.put l.row l.col 0
    count := if row = 0 then 1 else row
    cy := 0
    cx := 0
    top := 0
    left := 0
    dirty := false
    truncated := l.truncated || full }

/-- What `ed_load` finds: the file, its reads, what can be allocated, and how the calls before the first read
end. -/
structure Source where
  file : List UInt8
  read : Nat → Int
  room : Nat → Bool
  found : Bool
  isDir : Bool
  opens : Bool
  block : Bool

/-- `ed_load`, in a store that is empty. -/
def edLoad (src : Source) : Option Editor :=
  match LineStore.empty.line 0 src.room with
  | none => none
  | some ls =>
    let ls := ls.put 0 0 0
    if !src.found then some ⟨ls, 1, 0, 0, 0, 0, false, false⟩
    else if src.isDir || !src.opens || !src.block then none
    else some (Load.loop src.room src.file src.read (src.file.length + 1) 0 ⟨ls, 0, 0, false, false⟩).finish

/-! ### Saving -/

/-- What `ed_save` writes, when the file takes it; a truncated buffer is not saved. -/
def edSave (e : Editor) : Option (List UInt8) :=
  if e.truncated then none
  else some ((List.range e.count).flatMap fun i => cstr (e.ls.row i) ++ [0x0A])

end RPCortex.Edit
