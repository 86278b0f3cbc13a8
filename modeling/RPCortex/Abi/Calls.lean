import RPCortex.Abi.Ptrcheck
import RPCortex.Lib.Bytes

/-! The calls of `api.cpp` that hand an array of the package to the firmware: the scan, the PIO
program, the storage roots, the line reader and the shell.  What the outside supplies to a call (the
networks that were found, the keys that were typed, what a command printed) is an argument. -/

namespace RPCortex.Abi

open Lib

/-- Store bytes at `p + d` and on. -/
def storeAll (p : UInt32) : (d : UInt32) → List UInt8 → Act Unit
  | _, [] => pure ()
  | d, b :: rest => do
    let _ ← Prog.call (.store (.arg p) (p + d) b)
    storeAll p (d + 1) rest

/-- Store the fields of a record at `p`, each at its offset. -/
def storeFields (p : UInt32) : List (UInt32 × List UInt8) → Act Unit
  | [] => pure ()
  | field :: rest => do
    storeAll p field.1 field.2
    storeFields p rest

/-- What `snprintf(_, size, "%s", s)` stores. -/
def snprintf (size : Nat) (s : List UInt8) : List UInt8 := s.take (size - 1) ++ [0]

/-- The bytes of a word. -/
def wordBytes (v : UInt32) : List UInt8 := leEncode 4 v.toNat

/-! ### The scan -/

/-- `ScanEntry`. -/
structure ScanEntry where
  ssid : List UInt8
  rssi : Int16
  channel : UInt16
  auth : UInt8

/-- `sizeof(FwNetAp)`; `ssid` is 33 bytes, three are padding and three words follow. -/
def sizeofAp : UInt32 := 48

/-- The fields of record `i`, which begins at byte `48 * i`. -/
def apFields (i : Nat) (e : ScanEntry) : List (UInt32 × List UInt8) :=
  [(UInt32.ofNat (48 * i), snprintf 33 e.ssid),
    (UInt32.ofNat (48 * i + 36), wordBytes e.rssi.toInt32.toUInt32),
    (UInt32.ofNat (48 * i + 40), wordBytes e.channel.toUInt32),
    (UInt32.ofNat (48 * i + 44), wordBytes (if e.auth ≠ 0 then 1 else 0))]

/-- The records from `i` on. -/
def storeAps (out : UInt32) : (i : Nat) → List ScanEntry → Act Unit
  | _, [] => pure ()
  | i, e :: rest => do
    storeFields out (apFields i e)
    storeAps out (i + 1) rest

/-- `net_pkg_scan`; `scan` is what `scan_collect` left in `g_scan`, or nothing when it failed. -/
def netPkgScan (scan : Option (List ScanEntry)) (out max : UInt32) : Act Int32 :=
  if out = 0 ∨ max = 0 then pure (-1)
  else match scan with
    | none => pure (-1)
    | some entries => do
      storeAps out 0 (entries.take max.toNat)
      pure (Int32.ofNat (min entries.length max.toNat))

/-- `fw_net_scan`. -/
def fwNetScan (mem : TaskAppMem) (scan : Option (List ScanEntry)) (out max : UInt32) :
    Act Int32 := do
  if ← okRange (some mem) ⟨.arg out, out, max * sizeofAp, .write⟩ then netPkgScan scan out max
  else pure (-1)

/-! ### PIO programs -/

/-- The PIO side: the slots that are used, and what the SDK answers.  `reads` are the instructions that
`pio_add_program` reads of a program of some length; it takes them from the program. -/
structure Pio where
  used : List Bool
  canAdd : Bool
  offset : Int32
  reads : UInt32 → List Nat
  reads_lt : ∀ len, ∀ i ∈ reads len, i < len.toNat

/-- `pio_slot`. -/
def pioSlot (pio : Pio) (h : Int32) : Bool :=
  decide (0 ≤ h) && (pio.used[h.toInt.toNat]?).getD false

/-- `pio_add_program`: the two bytes of each instruction that it reads. -/
def pioAddProgram (pio : Pio) (prog len : UInt32) : Act Unit :=
  (pio.reads len).forM fun i => do
    let _ ← Prog.call (.load (.arg prog) (prog + UInt32.ofNat (2 * i)))
    let _ ← Prog.call (.load (.arg prog) (prog + UInt32.ofNat (2 * i + 1)))
    pure ()

/-- `fw_pio_load`. -/
def fwPioLoad (mem : TaskAppMem) (pio : Pio) (h : Int32) (prog len wrapTarget wrap : UInt32) :
    Act Int32 :=
  if !pioSlot pio h ∨ prog = 0 ∨ len = 0 ∨ 32 < len then pure (-1)
  else do
    if ← okRange (some mem) ⟨.arg prog, prog, len * 2, .read⟩ then
      if len ≤ wrap ∨ len ≤ wrapTarget then pure (-1)
      else if !pio.canAdd then pure (-1)
      else do
        pioAddProgram pio prog len
        pure pio.offset
    else pure (-1)

/-! ### Storage roots -/

/-- The fields of `SdInfo` that a root shows. -/
structure SdInfo where
  mounted : Bool
  recentlyRemoved : Bool
  label : List UInt8
  volumeBytes : UInt64
  freeBytes : UInt64

/-- `sizeof(FwStorageRoot)`. -/
def sizeofRoot : UInt32 := 52

/-- The fields of the root at byte `d`. -/
def rootFields (d : UInt32) (label path : List UInt8) (kind present : UInt8)
    (totalKb freeKb : UInt32) : List (UInt32 × List UInt8) :=
  [(d, snprintf 16 label), (d + 16, snprintf 24 path), (d + 40, [kind, present]),
    (d + 44, wordBytes totalKb), (d + 48, wordBytes freeKb)]

/-- `fw_storage_roots`; `sd` is nothing on a device without a card slot. -/
def fwStorageRoots (mem : TaskAppMem) (total free : UInt32) (sd : Option SdInfo) (out : UInt32)
    (max : Int32) : Act Int32 :=
  if max < 1 then pure (-1)
  else do
    let want : UInt32 := if max < 2 then 1 else 2
    if ← okRange (some mem) ⟨.arg out, out, sizeofRoot * want, .write⟩ then do
      storeAll out 0 (List.replicate (sizeofRoot * want).toNat 0)
      storeFields out
        (rootFields 0 "On-Board".toUTF8.data.toList [0x2F] 0 1 (total / 1024) (free / 1024))
      match sd with
      | some sd =>
        if want = 2 ∧ (sd.mounted || sd.recentlyRemoved) then do
          let label := if sd.mounted && sd.label ≠ [] then sd.label else "SD".toUTF8.data.toList
          storeFields out (rootFields sizeofRoot label "/sd".toUTF8.data.toList 1
            (if sd.mounted then 1 else 0) (sd.volumeBytes / 1024).toUInt32
            (sd.freeBytes / 1024).toUInt32)
          pure 2
        else pure 1
      | none => pure 1
    else pure (-1)

/-! ### Reading a line -/

/-- What a pass of the line reader meets. -/
inductive Input
  | stopped
  | interrupted
  | timeout
  | char (c : UInt8)

/-- The loop of `fw_line_read` with `n` characters stored, as far as the inputs go. -/
def lineLoop (buf : UInt32) (cap : Int32) : (n : Int32) → List Input → Act Int32
  | _, [] => pure (-1)
  | n, input :: rest =>
    match input with
    | .stopped | .interrupted => pure (-1)
    | .timeout => lineLoop buf cap n rest
    | .char c =>
      if c = 3 then pure (-1)
      else if c = 13 ∨ c = 10 then do
        let _ ← Prog.call (.store (.arg buf) (buf + n.toUInt32) 0)
        pure n
      else if c = 8 ∨ c = 0x7f then lineLoop buf cap (if n ≠ 0 then n - 1 else n) rest
      else if n < cap - 1 then do
        let _ ← Prog.call (.store (.arg buf) (buf + n.toUInt32) c)
        lineLoop buf cap (n + 1) rest
      else lineLoop buf cap n rest

/-- `fw_line_read`; `console` says whether the input could be claimed. -/
def fwLineRead (mem : TaskAppMem) (console : Bool) (inputs : List Input) (buf : UInt32)
    (cap : Int32) : Act Int32 := do
  if ← okRange (some mem) ⟨.arg buf, buf, cap.toUInt32, .write⟩ then
    if cap < 1 then pure (-1)
    else if !console then pure (-1)
    else lineLoop buf cap 0 inputs
  else pure (-1)

/-! ### Capturing the output of a command -/

/-- `g_cap_len`, `g_cap_over` and the state of the filter. -/
structure Captured where
  len : UInt32
  overflowed : Bool
  esc : UInt8

/-- The loop of `cap_append` over the bytes that `source` reads, `n` of them from byte `i`. -/
def capLoop (out cap : UInt32) (source : Nat → Act UInt8) :
    (n i : Nat) → Captured → Act Captured
  | 0, _, st => pure st
  | n + 1, i, st => do
    let c ← source i
    if st.esc = 1 then capLoop out cap source n (i + 1) { st with esc := if c = 0x5B then 2 else 0 }
    else if st.esc = 2 then
      capLoop out cap source n (i + 1) { st with esc := if 0x40 ≤ c ∧ c ≤ 0x7e then 0 else 2 }
    else if c = 0x1B then capLoop out cap source n (i + 1) { st with esc := 1 }
    else if cap ≤ st.len + 1 then pure { st with overflowed := true }
    else do
      let _ ← Prog.call (.store (.arg out) (out + st.len) c)
      capLoop out cap source n (i + 1) { st with len := st.len + 1 }

/-- `cap_append`. -/
def capAppend (out cap : UInt32) (source : Nat → Act UInt8) (n : Nat) (st : Captured) :
    Act Captured := do
  let st ← capLoop out cap source n 0 st
  let _ ← Prog.call (.store (.arg out) (out + st.len) 0)
  pure st

/-- Bytes of the firmware. -/
def fromBytes (data : List UInt8) (i : Nat) : Act UInt8 := pure (data.getD i 0)

/-- What a command prints: through `out_write`, through `out_multi`, or in the pieces of a tagged
line. -/
inductive Printed
  | write (data : List UInt8)
  | multi (text : List UInt8)
  | tagged (pieces : List (List UInt8))

/-- `out_multi` into the capture: the text goes into the room that is left and back through the
filter. -/
def outMulti (out cap : UInt32) (text : List UInt8) (st : Captured) : Act Captured := do
  let start := st.len
  let room := cap - 1 - start
  storeAll out start (snprintf (room.toNat + 1) text)
  let got := min text.length room.toNat
  let esc := st.esc
  let st ← capAppend out cap
    (fun i => Prog.call (.load (.arg out) (out + (start + UInt32.ofNat i)))) got
    ⟨start, st.overflowed || decide (room.toNat < text.length), 0⟩
  let st ← capAppend out cap (fromBytes [10]) 1 { st with esc := 0 }
  pure { st with esc := esc }

/-- The pieces of a tagged line, with a filter of their own. -/
def capPieces (out cap : UInt32) : List (List UInt8) → Captured → Act Captured
  | [], st => pure st
  | piece :: rest, st => do
    let st ← capAppend out cap (fromBytes piece) piece.length st
    capPieces out cap rest st

/-- One thing printed into the capture. -/
def capPrint (out cap : UInt32) (p : Printed) (st : Captured) : Act Captured :=
  match p with
  | .write data => capAppend out cap (fromBytes data) data.length st
  | .multi text => outMulti out cap text st
  | .tagged pieces => do
    let esc := st.esc
    let st ← capPieces out cap pieces { st with esc := 0 }
    let st ← capAppend out cap (fromBytes [10]) 1 { st with esc := 0 }
    pure { st with esc := esc }

/-- All that a command prints. -/
def capAll (out cap : UInt32) : List Printed → Captured → Act Unit
  | [], _ => pure ()
  | p :: rest, st => do
    let st ← capPrint out cap p st
    capAll out cap rest st

/-! ### Running a command -/

/-- `RPC_SHELL_LINE_MAX`. -/
def shellLineMax : Nat := 256

/-- The copy of the line into `work`, with `n` characters so far; nothing when it is too long. -/
def copyLine (line : UInt32) : (left n : Nat) → List UInt8 → Act (Option (List UInt8))
  | 0, n, work => do
    let c ← Prog.call (.load (.arg line) (line + UInt32.ofNat n))
    pure (if c = 0 then some work else none)
  | left + 1, n, work => do
    let c ← Prog.call (.load (.arg line) (line + UInt32.ofNat n))
    if c = 0 then do
      let c ← Prog.call (.load (.arg line) (line + UInt32.ofNat n))
      pure (if c = 0 then some work else none)
    else copyLine line left (n + 1) (work ++ [c])

/-- What the outside makes of a command: whether a capture is going on already, what the command
prints and what it returns. -/
structure Ran where
  capturing : Bool
  printed : List UInt8 → List Printed
  rc : List UInt8 → Int32

/-- A command with its output captured, unless a capture is going on already. -/
def runCaptured (ran : Ran) (out cap : UInt32) (work : List UInt8) : Act Int32 := do
  let _ ← Prog.call (.store (.arg out) out 0)
  if ran.capturing then pure (ran.rc work)
  else do
    -- `out_capture_begin_all` ends the empty text again
    let _ ← Prog.call (.store (.arg out) out 0)
    capAll out cap (ran.printed work) ⟨0, false, 0⟩
    pure (ran.rc work)

/-- What `fw_shell_run` does after its checks. -/
def runLine (ran : Ran) (line out cap : UInt32) : Act Int32 := do
  match ← copyLine line (shellLineMax - 1) 0 [] with
  | none => pure (-1)
  | some work =>
    if out = 0 ∨ cap = 0 then pure (ran.rc work) else runCaptured ran out cap work

/-- `fw_shell_run`. -/
def fwShellRun (mem : TaskAppMem) (ran : Ran) (line out cap : UInt32) : Act Int32 := do
  if ← okS (some mem) line then
    if out ≠ 0 ∧ cap ≠ 0 then do
      if ← okRange (some mem) ⟨.arg out, out, cap, .write⟩ then runLine ran line out cap
      else pure (-1)
    else runLine ran line out cap
  else pure (-1)

/-! ### Collecting a detached run -/

/-- `DetachRun`, without what a collection does not read. -/
structure DetachRun where
  used : Bool
  done : Bool
  gen : UInt8
  capturing : Bool
  owner : UInt32
  status : Int32
  pkgOut : UInt32
  pkgCap : UInt32

/-- `g_runs`, `g_capture` and `g_capture_slot`. -/
structure Detached where
  runs : List DetachRun
  capture : List UInt8
  captureSlot : Option Nat

/-- `DETACH_MAX`. -/
def detachMax : UInt32 := 2

/-- The slot of a handle. -/
def slotOf (handle : Int32) : Nat := (handle.toUInt32 % detachMax).toNat

/-- `lookup`. -/
def lookup (d : Detached) (handle : Int32) : Option DetachRun :=
  if handle < 0 then none
  else match d.runs[slotOf handle]? with
    | some r => if r.used ∧ r.gen = (handle.toUInt32 / detachMax).toUInt8 then some r else none
    | none => none

/-- `detach_find`. -/
def detachFind (d : Detached) (handle : Int32) (owner : UInt32) : Option DetachRun :=
  match lookup d handle with
  | some r => if owner ≠ 0 ∧ r.owner = owner then some r else none
  | none => none

/-- `detach_capture_buffer`, as the string in it. -/
def captureBuffer (d : Detached) (handle : Int32) : Option (List UInt8) :=
  match lookup d handle with
  | some r =>
    if r.capturing ∧ d.captureSlot = some (slotOf handle) then some (cstr d.capture) else none
  | none => none

/-- The answer goes to the buffer of the package, as far as it fits. -/
def handOver (mem : TaskAppMem) (text : Option (List UInt8)) (r : DetachRun) : Act Unit :=
  if r.pkgOut = 0 ∨ r.pkgCap = 0 then pure ()
  else do
    if ← okRange (some mem) ⟨.arg r.pkgOut, r.pkgOut, r.pkgCap, .write⟩ then
      storeAll r.pkgOut 0 (snprintf r.pkgCap.toNat (text.getD []))
    else pure ()

/-- What `fw_shell_done` does after its check. -/
def collect (mem : TaskAppMem) (d : Detached) (handle : Int32) (status : UInt32) : Act Int32 :=
  if mem.text = 0 then pure (-1)
  else match detachFind d handle mem.text with
    | none => pure (-1)
    | some r =>
      if !r.done then pure 0
      else do
        handOver mem (captureBuffer d handle) r
        storeAll status 0 (if status ≠ 0 then wordBytes r.status.toUInt32 else [])
        pure 1

/-- `fw_shell_done`. -/
def fwShellDone (mem : TaskAppMem) (d : Detached) (handle : Int32) (status : UInt32) : Act Int32 :=
  if status ≠ 0 then do
    if ← okRange (some mem) ⟨.arg status, status, 4, .write⟩ then collect mem d handle status
    else pure (-1)
  else collect mem d handle status

/-! ### The calls -/

/-- What the outside supplies to the calls. -/
structure Outside where
  scan : Option (List ScanEntry)
  pio : Pio
  flashTotal : UInt32
  flashFree : UInt32
  sd : Option SdInfo
  console : Bool
  inputs : List Input
  ran : Ran
  detached : Detached

/-- The calls with an array, with their arguments. -/
inductive Call
  | netScan (out max : UInt32)
  | pioLoad (h : Int32) (prog len wrapTarget wrap : UInt32)
  | storageRoots (out : UInt32) (max : Int32)
  | lineRead (buf : UInt32) (cap : Int32)
  | shellRun (line out cap : UInt32)
  | shellDone (handle : Int32) (status : UInt32)

/-- A call of a sandboxed package. -/
def Call.run (mem : TaskAppMem) (o : Outside) : Call → Act Int32
  | .netScan out max => fwNetScan mem o.scan out max
  | .pioLoad h prog len wrapTarget wrap => fwPioLoad mem o.pio h prog len wrapTarget wrap
  | .storageRoots out max => fwStorageRoots mem o.flashTotal o.flashFree o.sd out max
  | .lineRead buf cap => fwLineRead mem o.console o.inputs buf cap
  | .shellRun line out cap => fwShellRun mem o.ran line out cap
  | .shellDone handle status => fwShellDone mem o.detached handle status

end RPCortex.Abi
