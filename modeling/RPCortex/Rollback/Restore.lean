import RPCortex.Rollback.Files

/-! `rollback.cpp`: the saved image and its record, saving them and putting them back, and the device
over a sequence of these with power cuts. -/

namespace RPCortex.Rollback

open Lib

/-- A program over the storage operations. -/
abbrev Io := Prog Op Answer

/-- The constants of a build: `RPC_OS_LONG`, `PICO_BOARD`, `storage_reserve_bytes()` and
`storage_fw_slot_bytes()`.  The texts are C strings that leave room for the rest of the record. -/
structure Build where
  ver : List UInt8
  board : List UInt8
  reserve : UInt32
  slot : UInt32
  verText : 0 ∉ ver
  boardText : 0 ∉ board
  short : ver.length + board.length ≤ 200

/-- `RollbackInfo`, with the number of the capture that wrote the record. -/
structure RollbackInfo where
  ver : List UInt8
  board : List UInt8
  size : Nat
  reserve : Nat
  sha : List UInt8
  capture : Nat

/-- `strtoul(v, nullptr, 10)` of 32 bits. -/
def strtoul (v : List UInt8) : Nat :=
  let (negative, s) := signOf (v.dropWhile isSpace)
  let n := min (ofDigits 10 (digits 10 s)) (2 ^ 32 - 1)
  if negative then (2 ^ 32 - n) % 2 ^ 32 else n

/-- `snprintf(_, size, "%s", v)` into a field. -/
def field (size : Nat) (v : List UInt8) : List UInt8 := v.take (size - 1)

/-- `parse_line`. -/
def parseLine (o : RollbackInfo) (line : List UInt8) : RollbackInfo :=
  match cutAt 0x3D line with
  | none => o
  | some (k, v) =>
    if k = ascii "ver" then { o with ver := field 24 v }
    else if k = ascii "board" then { o with board := field 24 v }
    else if k = ascii "sha" then { o with sha := field 65 v }
    else if k = ascii "size" then { o with size := strtoul v }
    else if k = ascii "reserve" then { o with reserve := strtoul v }
    else o

/-- The record in a file of the configuration. -/
def parseRecord (f : File) : RollbackInfo :=
  (splitLines 0x0A (cstr f.bytes)).foldl parseLine ⟨[], [], 0, 0, [], f.capture⟩

/-- `rollback_read`. -/
def rollbackRead (b : Build) : Io (Option RollbackInfo) := do
  let st ← Prog.call (.stat .cfg)
  if !st.ok ∨ st.size = 0 ∨ 512 < st.size then pure none
  else do
    let src ← Prog.call (.openSource .cfg)
    if !src.ok then pure none
    else do
      let text ← Prog.call (.read .cfg 0 st.size)
      if !text.ok then pure none
      else
        let info := parseRecord text.file
        if info.ver = [] ∨ info.sha = [] ∨ info.size = 0 then pure none
        else if info.board ≠ b.board then pure none
        else if info.reserve ≠ b.reserve.toNat then pure none
        else if b.slot.toNat < info.size then pure none
        else do
          let img ← Prog.call (.stat .img)
          if !img.ok then pure none
          else if img.size ≠ info.size then pure none
          else pure (some info)

/-- `rollback_forget`. -/
def rollbackForget : Io Unit := do
  let _ ← Prog.call (.remove .cfg)
  let _ ← Prog.call (.remove .img)
  pure ()

/-- `CHUNK`. -/
def chunk : Nat := 4096

/-- The loop of `rollback_capture` over what is left of the running firmware. -/
def saveImage : (fuel : Nat) → List UInt8 → Io Bool
  | 0, _ => pure true
  | fuel + 1, left =>
    if left = [] then pure true
    else do
      let wrote ← Prog.call (.sinkWrite (left.take chunk))
      if wrote.ok then saveImage fuel (left.drop chunk) else pure false

section Hash

variable (sha256 : List UInt8 → Digest)

/-- The record of an image. -/
def recordText (b : Build) (firmware : List UInt8) : List UInt8 :=
  ascii "ver=" ++ b.ver ++ ascii "\nboard=" ++ b.board ++
    ascii "\nsize=" ++ ascii (toString firmware.length) ++
    ascii "\nreserve=" ++ ascii (toString b.reserve.toNat) ++
    ascii "\nsha=" ++ hex (sha256 firmware) ++ [0x0A]

/-- The end of `rollback_capture`: the image is there, and the record is written. -/
def saveRecord (b : Build) (firmware : List UInt8) (capture : Nat) : Io Bool := do
  let failed : Io Bool := do
    let _ ← Prog.call (.remove .cfg)
    let _ ← Prog.call (.remove .img)
    pure false
  let sink ← Prog.call (.openSink .cfg capture)
  if !sink.ok then failed
  else do
    let wrote ← Prog.call (.sinkWrite (recordText sha256 b firmware))
    if !wrote.ok then do
      let _ ← Prog.call .closeSink
      failed
    else do
      let closed ← Prog.call .closeSink
      if !closed.ok then do
        -- the source closes the handle again
        let _ ← Prog.call .closeSink
        failed
      else pure true

/-- The part of `rollback_capture` behind its checks. -/
def saveFirmware (b : Build) (firmware : List UInt8) (capture : Nat) : Io Bool := do
  let _ ← Prog.call (.remove .cfg)
  let _ ← Prog.call (.remove .img)
  let sink ← Prog.call (.openSink .img capture)
  if !sink.ok then pure false
  else do
    let wrote ← saveImage firmware.length firmware
    let closed ← Prog.call .closeSink
    if !(wrote && closed.ok) then do
      let _ ← Prog.call (.remove .img)
      pure false
    else saveRecord sha256 b firmware capture

/-- `rollback_capture` of the running firmware. -/
def rollbackCapture (b : Build) (firmware : List UInt8) (capture : Nat) : Io Bool :=
  if firmware = [] ∨ b.slot.toNat < firmware.length then pure false
  else do
    let existing ← Prog.call (.stat .img)
    if firmware.length - existing.size = 0 then saveFirmware sha256 b firmware capture
    else do
      let fits ← Prog.call (.wouldFit (firmware.length - existing.size))
      if !fits.ok then pure false else saveFirmware sha256 b firmware capture

/-- The loop of `image_matches`: the bytes of the image from `at_` on. -/
def readImage : (fuel : Nat) → (at_ left : Nat) → List UInt8 → Io (Option (List UInt8))
  | 0, _, _, image => pure (some image)
  | fuel + 1, at_, left, image =>
    if left = 0 then pure (some image)
    else do
      let n := min left chunk
      let r ← Prog.call (.read .img at_ n)
      if r.ok then readImage fuel (at_ + n) (left - n) (image ++ r.file.bytes) else pure none

/-- `image_matches`. -/
def imageMatches (info : RollbackInfo) : Io Bool := do
  let buf ← Prog.call .malloc
  if !buf.ok then pure false
  else do
    let src ← Prog.call (.openSource .img)
    if !src.ok then pure false
    else do
      match ← readImage info.size 0 info.size [] with
      | none => pure false
      | some image => pure (hex (sha256 image) = info.sha)

/-- `rollback_apply`. -/
def rollbackApply (b : Build) (atBoot : Bool) : Io Bool := do
  match ← rollbackRead b with
  | none => pure false
  | some info =>
    let matched ← imageMatches sha256 info
    if !matched then do
      rollbackForget
      pure false
    else do
      let _ ← Prog.call .saveRegistry
      let _ ← Prog.call (.remove .used)
      let _ ← Prog.call (.rename .cfg .used)
      let wrote ← Prog.call (.apply info.capture atBoot)
      if wrote.ok then pure true
      else do
        let _ ← Prog.call .saveRegistry
        if atBoot then pure false
        else do
          let _ ← Prog.call (.rename .used .cfg)
          pure false

/-- `rollback_try_at_boot`, and `update rollback --now`, which also reads the record first. -/
def rollbackTry (b : Build) (atBoot : Bool) : Io Bool := do
  match ← rollbackRead b with
  | none => pure false
  | some _ => rollbackApply sha256 b atBoot

/-- Forget the copy and what was spent: `update rollback --forget`, and the boot that reports a
restore. -/
def forgetAll : Io Bool := do
  rollbackForget
  let _ ← Prog.call (.remove .used)
  pure false

/-! ### The device -/

/-- What happens to the device: the running firmware is saved, a boot puts the copy back, somebody
does, the copy is forgotten with or without what was spent, or the filesystem is made anew. -/
inductive Event
  | capture (b : Build) (firmware : List UInt8)
  | restore (b : Build) (atBoot : Bool)
  | makeRoom
  | forget
  | format

/-- An event, the results of its operations and the number of operations after which power fails. -/
structure Turn where
  event : Event
  results : Nat → Result
  cut : Nat

/-- The program of an event; `capture` is the number of a capture. -/
def Event.program (capture : Nat) : Event → Io Bool
  | .capture b firmware => rollbackCapture sha256 b firmware capture
  | .restore b atBoot => rollbackTry sha256 b atBoot
  | .makeRoom => do
    rollbackForget
    pure false
  | .forget => forgetAll
  | .format => pure false

/-- The device when an event begins: no file is open, and a new filesystem is empty. -/
def Event.enter (e : Event) (s : Device) : Device :=
  match e with
  | .format => { s with file := fun _ => none, sink := none }
  | _ => { s with sink := none }

/-- The device after an event that ended with `value`: a capture that returned true succeeded. -/
def Event.leave (e : Event) (capture : Nat) (value : Option Bool) (s : Device) : Device :=
  match e with
  | .capture _ firmware =>
    if value = some true then
      { s with captured := (capture, hex (sha256 firmware)) :: s.captured }
    else s
  | _ => s

/-- A turn of the device, and the number of turns so far. -/
def turn (s : Nat × Device) (t : Turn) : Option (Nat × Device) :=
  let run := (t.event.program sha256 s.1).runFor (perform sha256) t.results t.cut 0
    (t.event.enter s.2)
  some (s.1 + 1, t.event.leave sha256 s.1 run.1.value run.2)

end Hash

/-- A device without any of the files. -/
def freshDevice : Nat × Device := (0, ⟨fun _ => none, none, [], [], false⟩)

/-- Each capture was restored at most once by a boot, and what was staged then has the hash that the
capture recorded. -/
structure OneShot (s : Device) : Prop where
  once : (s.reached.map Prod.fst).Nodup
  recorded : ∀ r ∈ s.reached, r ∈ s.captured

end RPCortex.Rollback
