import RPCortex.Lib.CNumber
import RPCortex.Lib.Run
import RPCortex.Lib.Wp
import RPCortex.Lib.Bytes

/-! The three files of a firmware rollback and the storage operations on them.  Results are the
outside's: an operation succeeds or it changes nothing.  littlefs commits a file when it is closed,
so a sink that power leaves open, or whose close fails, leaves the file that was there.  Beside the
files the state keeps, for the statements only, which capture wrote a file, which captures succeeded
and which restores reached the firmware write. -/

namespace RPCortex.Rollback

open Lib

/-- `ROLLBACK_CFG`, `ROLLBACK_IMG` and `/os/rollback.used`. -/
inductive Path
  | cfg
  | img
  | used
  deriving DecidableEq

/-- The contents of a file, and the number of the capture that wrote it. -/
structure File where
  bytes : List UInt8
  capture : Nat
  deriving DecidableEq

/-- `SinkHandle`, with what littlefs has taken of it. -/
structure Sink where
  path : Path
  capture : Nat
  taken : List UInt8
  held : List UInt8
  ok : Bool

/-- `SINK_BUF`. -/
def sinkBuf : Nat := 4096

/-- A SHA-256 digest. -/
abbrev Digest := Vector UInt8 32

/-- A digit in base 16. -/
def hexDigit (d : UInt8) : UInt8 := if d < 10 then 0x30 + d else 0x57 + d

/-- `"%02x"` of each byte of a digest. -/
def hex (d : Digest) : List UInt8 := d.toList.flatMap fun b => [hexDigit (b / 16), hexDigit (b % 16)]

/-- The storage operations, and the other calls that can fail.  `apply` is `update_apply_file` of the
image, on the record of a capture. -/
inductive Op
  | stat (path : Path)
  | wouldFit (bytes : Nat)
  | malloc
  | openSource (path : Path)
  | read (path : Path) (off n : Nat)
  | remove (path : Path)
  | rename (source target : Path)
  | openSink (path : Path) (capture : Nat)
  | sinkWrite (data : List UInt8)
  | closeSink
  | saveRegistry
  | apply (capture : Nat) (atBoot : Bool)
  deriving DecidableEq

/-- What the outside decides: whether the operation succeeds, and for a sink whether what it holds
is written and whether the file is closed. -/
structure Result where
  ok : Bool
  flush : Bool

/-- What an operation returns. -/
structure Answer where
  ok : Bool
  size : Nat
  file : File

/-- The device between two operations.  `spoiled` says that a rename of the record to the used one
failed. -/
structure Device where
  file : Path → Option File
  sink : Option Sink
  captured : List (Nat × List UInt8)
  reached : List (Nat × List UInt8)
  spoiled : Bool

/-- An answer that is success or failure. -/
def Answer.flag (ok : Bool) : Answer := ⟨ok, 0, ⟨[], 0⟩⟩

/-- `sink_flush`. -/
def Sink.flush (h : Sink) (ok : Bool) : Sink :=
  if h.held = [] then h
  else if ok then { h with taken := h.taken ++ h.held, held := [] }
  else { h with held := [], ok := false }

/-- `storage_sink_write` of at most a full buffer. -/
def Sink.write (h : Sink) (data : List UInt8) (r : Result) : Bool × Sink :=
  if !r.ok then (false, { h with ok := false })
  else if !h.ok then (false, h)
  else
    let filled := { h with held := h.held ++ data.take (sinkBuf - h.held.length) }
    if filled.held.length < sinkBuf then (true, filled)
    else
      let flushed := filled.flush r.flush
      (flushed.ok, if flushed.ok then
        { flushed with held := data.drop (sinkBuf - h.held.length) } else flushed)

section Perform

variable (sha256 : List UInt8 → Digest)

/-- One operation. -/
def perform (s : Device) (op : Op) (r : Result) : Answer × Device :=
  match op with
  | .stat path =>
    match s.file path with
    | some f => if r.ok then (⟨true, f.bytes.length, f⟩, s) else (.flag false, s)
    | none => (.flag false, s)
  | .wouldFit _ | .malloc | .saveRegistry => (.flag r.ok, s)
  | .openSource path => (.flag (r.ok && (s.file path).isSome), s)
  | .read path off n =>
    match s.file path with
    | some f =>
      if r.ok then (⟨true, n, ⟨(f.bytes.drop off).take n, f.capture⟩⟩, s) else (.flag false, s)
    | none => (.flag false, s)
  | .remove path =>
    if r.ok ∧ (s.file path).isSome then (.flag true, { s with file := upd s.file path none })
    else (.flag false, s)
  | .rename source target =>
    if r.ok ∧ (s.file source).isSome then
      (.flag true, { s with file := upd (upd s.file target (s.file source)) source none })
    else
      (.flag false, { s with
        spoiled := s.spoiled || (!r.ok && decide (source = .cfg ∧ target = .used)) })
  | .openSink path capture =>
    if r.ok then
      (.flag true,
        { s with
          sink := some ⟨path, capture, [], [], true⟩
          file := if (s.file path).isSome then s.file else upd s.file path (some ⟨[], capture⟩) })
    else (.flag false, s)
  | .sinkWrite data =>
    match s.sink with
    | some h => (.flag (h.write data r).1, { s with sink := some (h.write data r).2 })
    | none => (.flag false, s)
  | .closeSink =>
    match s.sink with
    | some h =>
      let h := h.flush r.flush
      if r.ok then
        (.flag h.ok, { s with sink := none, file := upd s.file h.path (some ⟨h.taken, h.capture⟩) })
      else (.flag false, { s with sink := none })
    | none => (.flag false, s)
  | .apply capture atBoot =>
    let staged := ((s.file .img).map File.bytes).getD []
    (.flag r.ok, if atBoot then
      { s with reached := (capture, hex (sha256 staged)) :: s.reached } else s)

end Perform

end RPCortex.Rollback
