import RPCortex.Card.Slices

/-! The long names of a directory on a card.  `lfn_gather` puts the pieces into place and starts again behind a piece
that fails, so the pieces that count are those of a run behind the last one that does. -/

namespace RPCortex.Card

open Lib Fat12

/-! ### Pieces -/

/-- The place of a piece in its name, from 1. -/
def number (e : List UInt8) : Nat := (e.getD 0 0 &&& 0x1F).toNat

/-- The thirteen characters of a piece. -/
def units (e : List UInt8) : List Nat := lfnOffsets.map (rd16 e)

/-- A character, not the end of a name or what fills the piece behind it. -/
def IsChar (c : Nat) : Prop := ¬(c = 0xFFFF ∨ c = 0)

instance (c : Nat) : Decidable (IsChar c) := inferInstanceAs (Decidable (¬_))

/-- The characters fit into the buffer from `idx` on and are ASCII. -/
def UnitsFit : (units : List Nat) → (idx : Nat) → Prop
  | [], _ => True
  | c :: units, idx => (IsChar c → idx < maxName - 1 ∧ c ≤ 0x7F) ∧ UnitsFit units (idx + 1)

instance instDecidableUnitsFit : (units : List Nat) → (idx : Nat) → Decidable (UnitsFit units idx)
  | [], _ => .isTrue trivial
  | _ :: units, idx => @instDecidableAnd _ _ _ (instDecidableUnitsFit units (idx + 1))

/-- A piece that has a place and is taken. -/
def Taken (e : List UInt8) : Prop := number e ≠ 0 ∧ UnitsFit (units e) ((number e - 1) * 13)

instance (e : List UInt8) : Decidable (Taken e) := inferInstanceAs (Decidable (_ ∧ _))

/-- The state in front of a piece. -/
def armed (l : LongName) : LongName := if l.ok then l else { noName with ok := true }

/-- What `dir_raw` has gathered at the end of a run of pieces. -/
def gathered (run : List (List UInt8)) : LongName := run.foldl (fun l e => lfnGather e (armed l)) noName

/-- The long name that is handed over with the entry behind a run. -/
def shownName (run : List (List UInt8)) : List UInt8 := if (gathered run).ok then cstr (gathered run).name else []

/-- A run that is a name: its pieces count down to 1, only the first one says that it is the last of the name, and
all are taken. -/
def Whole (run : List (List UInt8)) : Prop :=
  run ≠ [] ∧ run.map number = (List.range' 1 run.length).reverse ∧
    run.map (fun e => decide (e.getD 0 0 &&& 0x40 ≠ 0)) = true :: List.replicate (run.length - 1) false ∧
    ∀ e ∈ run, Taken e

instance (run : List (List UInt8)) : Decidable (Whole run) := inferInstanceAs (Decidable (_ ∧ _ ∧ _ ∧ _))

variable {e : List UInt8} {run : List (List UInt8)} {l : LongName} {us : List Nat} {idx k : Nat}

/-! ### Gathering -/

/-- The first character of a name is in one of the pieces. -/
def Begins (run : List (List UInt8)) : Prop := ∃ p ∈ run, number p = 1 ∧ IsChar ((units p).getD 0 0)

/-- The entries of a sector. -/
def entriesOf (b : Sector) : List (List UInt8) := (List.range 16).map fun i => (b.1.drop (i * 32)).take 32

/-- The files of a directory, each with the run of long-name entries in front of it. -/
def files (run : List (List UInt8)) : List (List UInt8) → List (List (List UInt8) × List UInt8)
  | [] => []
  | e :: entries =>
    if e.getD 0 0 = 0 then []
    else if e.getD 0 0 = 0xE5 then files [] entries
    else if e.getD 11 0 &&& 0x0F = 0x0F then files (run ++ [e]) entries
    else (run, e) :: files [] entries

/-- What a callback makes of the files. -/
def feed {σ : Type} (fn : RawFn σ) (s : σ) : List (List (List UInt8) × List UInt8) → σ
  | [] => s
  | file :: rest =>
    let r := fn s file.2 (shownName file.1)
    if r.2 then feed fn r.1 rest else r.1

/-- The callback that takes every file with the name it is handed. -/
def handed : RawFn (List (List UInt8 × List UInt8)) := fun taken e lname => (taken ++ [(e, lname)], true)

section Walk

variable {σ : Type} {fn : RawFn σ} {s : σ} {f : FatRo} {d : Sectors} {k : Cache}

end Walk

end RPCortex.Card
