import Mathlib
import RPCortex.Lib.Crc

/-! SD cards over SPI, `sdproto.cpp`.  What the card answers and what the clock shows are given from outside: a
byte for every byte that is clocked in, and a number of milliseconds for every reading, of which the driver
sees 32 bits.  A polling loop has fuel for the passes until its time is over. -/

namespace RPCortex.Sd

/-- A clock that advances, by the readings that are taken of it. -/
structure Clock where
  shows : Nat → Nat
  mono : Monotone shows
  unbounded : ∀ t, ∃ n, t ≤ shows n
  steps : ∀ n, shows (n + 1) < shows n + 2 ^ 31

/-- The card and the clock. -/
structure World where
  answers : Nat → UInt8
  clock : Clock

def probeMs : UInt32 := 40
def initMs : UInt32 := 1200
def readMs : UInt32 := 250
def busyMs : UInt32 := 500
def initHz : Nat := 400000
def runHz : Nat := 12000000

theorem Clock.ends (c : Clock) (r : Nat) : ∃ n, c.shows r + initMs.toNat ≤ c.shows (r + n) := by
  obtain ⟨n, le⟩ := c.unbounded (c.shows r + initMs.toNat)
  exact ⟨n, le.trans (c.mono (Nat.le_add_left n r))⟩

/-- The readings until the longest of the times is over, from reading `r` on. -/
def Clock.passes (c : Clock) (r : Nat) : Nat := Nat.find (c.ends r)

inductive SdType
  | none | v1 | v2sc | v2hc
  deriving DecidableEq

/-- `SD_OK` and what comes after it. -/
inductive SdError
  | ok | noCard | cmd8 | initTimeout | ocr | csd | blocklen
  deriving DecidableEq

/-- `SdCard` without its transport. -/
structure SdCard where
  type : SdType
  blockAddressed : Bool
  blocks : UInt32
  csd : List UInt8
  crcErrors : UInt32
  retries : UInt32
  lastError : SdError
  ready : Bool

/-- A card as `memset` leaves it. -/
def SdCard.cleared : SdCard := ⟨.none, false, 0, List.replicate 16 0, 0, 0, .ok, false⟩

/-- What goes out on the wires. -/
inductive Signal
  | cs (select : Bool)
  | baud (hz : Nat)
  | sent (bytes : List UInt8)
  | yielded (ms : Nat)

/-- The card's record, how many bytes were clocked in and readings taken, the chip select, and history. -/
structure State where
  card : SdCard
  pos : Nat
  reads : Nat
  selected : Bool
  log : List Signal

abbrev Dev (α : Type) : Type := StateT State Option α

/-! ### CRC -/

/-- The bits of a byte in `sd_crc7`. -/
def crc7Bits : Nat → UInt8 → UInt8 → UInt8
  | 0, crc, _ => crc
  | n + 1, crc, b =>
    let crc := crc <<< 1
    crc7Bits n (if (b ^^^ crc) &&& 0x80 ≠ 0 then crc ^^^ 0x09 else crc) (b <<< 1)

/-- `sd_crc7`. -/
def sdCrc7 (d : List UInt8) : UInt8 := d.foldl (fun crc b => crc7Bits 8 crc b) 0 &&& 0x7F

/-- The bits of a byte in `sd_crc16`. -/
def crc16Bits : Nat → UInt16 → UInt16
  | 0, crc => crc
  | n + 1, crc => crc16Bits n (if crc &&& 0x8000 ≠ 0 then crc <<< 1 ^^^ 0x1021 else crc <<< 1)

/-- `sd_crc16`. -/
def sdCrc16 (d : List UInt8) : UInt16 := d.foldl (fun crc b => crc16Bits 8 (crc ^^^ (b.toUInt16 <<< (8 : UInt16)))) 0

theorem toBitVec_crc16Bits (n : Nat) (crc : UInt16) :
    (crc16Bits n crc).toBitVec = (Lib.Crc.shift 0x1021#16)^[n] crc.toBitVec := by
  induction n generalizing crc with
  | zero => rfl
  | succ n ih =>
    have top : crc &&& 0x8000 ≠ 0 ↔ crc.toBitVec.msb = true := by
      have mask : (crc &&& 0x8000).toBitVec = crc.toBitVec &&& .twoPow 16 15 := rfl
      rw [ne_eq, ← UInt16.toBitVec_inj, mask, BitVec.and_twoPow, BitVec.msb_eq_getLsbD_last]
      cases crc.toBitVec.getLsbD 15 <;> decide
    rw [crc16Bits, ih, Function.iterate_succ_apply, Lib.Crc.shift]
    simp only [top]
    split <;> rfl

/-- What the driver computes is the CRC-16 of the data, and nothing else is. -/
theorem hasCrc16_iff_sdCrc16 {d : List UInt8} {crc : UInt16} : Lib.Crc.HasCrc16 d crc ↔ sdCrc16 d = crc := by
  have register (c : UInt16) :
      (d.foldl (fun crc b => crc16Bits 8 (crc ^^^ (b.toUInt16 <<< (8 : UInt16)))) c).toBitVec =
        (d.map UInt8.toBitVec).foldl (Lib.Crc.feed 0x1021#16) c.toBitVec := by
    induction d generalizing c with
    | nil => rfl
    | cons b d ih =>
      rw [List.foldl_cons, ih, toBitVec_crc16Bits]
      rfl
  rw [Lib.Crc.hasCrc16_iff, ← UInt16.toBitVec_inj, sdCrc16, register]
  rfl

/-! ### The wire -/

section Wire

variable (w : World)

def signal (e : Signal) : Dev Unit := modify fun s => { s with log := s.log ++ [e] }

def cs (select : Bool) : Dev Unit :=
  modify fun s => { s with selected := select, log := s.log ++ [.cs select] }

def setCard (f : SdCard → SdCard) : Dev Unit := modify fun s => { s with card := f s.card }

def card : Dev SdCard := do return (← get).card

def now : Dev UInt32 := fun s => some (UInt32.ofNat (w.clock.shows s.reads), { s with reads := s.reads + 1 })

/-- The fuel of a loop whose time begins with the last reading. -/
def fuel : Dev Nat := do return w.clock.passes ((← get).reads - 1) + 1

/-- The bytes that are clocked in. -/
def received (p n : Nat) : List UInt8 := (List.range n).map fun i => w.answers (p + i)

/-- `xf` without something to send. -/
def rx (n : Nat) : Dev (List UInt8) := fun s => some (received w s.pos n, { s with pos := s.pos + n })

/-- `xf` without a place for what comes. -/
def tx (bytes : List UInt8) : Dev Unit :=
  modify fun s => { s with pos := s.pos + bytes.length, log := s.log ++ [.sent bytes] }

/-- `rx1`. -/
def rx1 : Dev UInt8 := fun s => some (w.answers s.pos, { s with pos := s.pos + 1 })

def clocks : Nat → Dev Unit
  | 0 => pure ()
  | n + 1 => do
    let _ ← rx1 w
    clocks n

/-- The loop of `wait_idle`. -/
def waitIdleLoop (ms start : UInt32) : Nat → Dev Bool
  | 0 => failure
  | left + 1 => do
    if (← rx1 w) = 0xFF then return true
    else if (← now w) - start ≥ ms then return false
    else do
      signal (.yielded 1)
      waitIdleLoop ms start left

/-- `wait_idle`. -/
def waitIdle (ms : UInt32) : Dev Bool := do
  let start ← now w
  waitIdleLoop w ms start (← fuel w)

/-- The loop that waits for R1. -/
def answer : Nat → UInt8 → Dev UInt8
  | 0, r => pure r
  | n + 1, _ => do
    let r ← rx1 w
    if r &&& 0x80 = 0 then return r
    else answer n r

/-- The frame of a command. -/
def frame (cmd : UInt8) (arg : UInt32) : List UInt8 :=
  let f := [0x40 ||| cmd, (arg >>> 24).toUInt8, (arg >>> 16).toUInt8, (arg >>> 8).toUInt8, arg.toUInt8]
  f ++ [sdCrc7 f <<< 1 ||| 1]

/-- `send_cmd`: R1 and the bytes after it. -/
def sendCmd (cmd : UInt8) (arg : UInt32) (extra : Nat) : Dev (UInt8 × List UInt8) := do
  tx (frame cmd arg)
  let r ← answer w 10 0xFF
  return (r, ← rx w extra)

/-- Chip select up, and eight clocks. -/
def release : Dev Unit := do
  cs false
  clocks w 1

/-- `cmd_txn`. -/
def cmdTxn (cmd : UInt8) (arg : UInt32) (extra : Nat) : Dev (UInt8 × List UInt8) := do
  cs true
  if ← waitIdle w busyMs then
    let r ← sendCmd w cmd arg extra
    release w
    return r
  else
    release w
    return (0xFF, [])

/-- `send_acmd`. -/
def sendAcmd (cmd : UInt8) (arg : UInt32) : Dev UInt8 := do
  let r ← sendCmd w 55 0 0
  if r.1 &&& 0x80 ≠ 0 then return r.1
  else return (← sendCmd w cmd arg 0).1

/-- The loop of `read_data` up to the token, and whether the token came. -/
def tokenLoop (start : UInt32) : Nat → Dev Bool
  | 0 => failure
  | left + 1 => do
    let t ← rx1 w
    if t = 0xFE then return true
    else if t ≠ 0xFF then return false
    else if (← now w) - start ≥ readMs then return false
    else tokenLoop start left

/-- `read_data`: whether it succeeds, and the buffer. -/
def readData (buf : List UInt8) (len : Nat) (checkCrc : Bool) : Dev (Bool × List UInt8) := do
  let start ← now w
  if ← tokenLoop w start (← fuel w) then
    let data ← rx w len
    let crc ← rx w 2
    if checkCrc && sdCrc16 data ≠ (crc.getD 0 0).toUInt16 <<< 8 ||| (crc.getD 1 0).toUInt16 then
      setCard fun c => { c with crcErrors := c.crcErrors + 1 }
      return (false, data)
    else return (true, data)
  else return (false, buf)

/-! ### Initialisation -/

/-- A failure of `sd_init`. -/
def giveUp (e : SdError) : Dev Bool := do
  release w
  setCard fun c => { c with lastError := e }
  return false

/-- CMD0 until the card is idle. -/
def probeLoop (start : UInt32) : Nat → Dev Bool
  | 0 => failure
  | left + 1 => do
    if (← now w) - start < probeMs then
      if (← sendCmd w 0 0 0).1 = 0x01 then return true
      else do
        clocks w 1
        signal (.yielded 1)
        probeLoop start left
    else return false

/-- ACMD41 until the card is ready. -/
def readyLoop (start arg : UInt32) : Nat → Dev Bool
  | 0 => failure
  | left + 1 => do
    if (← now w) - start < initMs then
      let a ← sendAcmd w 41 arg
      if a = 0 then return true
      else if a &&& 0x80 ≠ 0 then return false
      else do
        release w
        signal (.yielded 10)
        cs true
        readyLoop start arg left
    else return false

/-- The number of blocks in the CSD. -/
def capacity (csd : List UInt8) : UInt32 :=
  let at_ := fun i => (csd.getD i 0).toUInt32
  if at_ 0 >>> 6 = 1 then
    let csize := (at_ 7 &&& 0x3F) <<< 16 ||| at_ 8 <<< 8 ||| at_ 9
    (csize + 1) * 1024
  else
    let csize := (at_ 6 &&& 0x03) <<< 10 ||| at_ 7 <<< 2 ||| at_ 8 >>> 6
    let mult := (at_ 9 &&& 0x03) <<< 1 ||| at_ 10 >>> 7
    let bytes := (csize + 1).toUInt64 * ((1 : UInt32) <<< (mult + 2)).toUInt64 *
      ((1 : UInt32) <<< (at_ 5 &&& 0x0F)).toUInt64
    (bytes / 512).toUInt32

/-- From the CSD on. -/
def initCsd : Dev Bool := do
  if (← sendCmd w 9 0 0).1 ≠ 0 then giveUp w .csd
  else do
    let r ← readData w (← card).csd 16 false
    setCard fun c => { c with csd := r.2 }
    if r.1 then
      setCard fun c => { c with blocks := capacity c.csd }
      release w
      signal (.baud runHz)
      setCard fun c => { c with ready := true, lastError := .ok }
      return true
    else giveUp w .csd

/-- From the block length on. -/
def initLength : Dev Bool := do
  if (← card).blockAddressed then initCsd w
  else if (← sendCmd w 16 512 0).1 ≠ 0 then giveUp w .blocklen
  else initCsd w

/-- From the OCR on. -/
def initOcr (v2 : Bool) : Dev Bool := do
  setCard fun c => { c with blockAddressed := false }
  if v2 then
    let r ← sendCmd w 58 0 4
    if r.1 ≠ 0 then giveUp w .ocr
    else if r.2.getD 0 0 &&& 0x80 = 0 then giveUp w .ocr
    else do
      let high := r.2.getD 0 0 &&& 0x40 ≠ 0
      setCard fun c => { c with blockAddressed := high, type := if high then .v2hc else .v2sc }
      initLength w
  else
    setCard fun c => { c with type := .v1 }
    initLength w

/-- From CMD59 on. -/
def initReady (v2 : Bool) : Dev Bool := do
  let _ ← sendCmd w 59 1 0
  let start ← now w
  if ← readyLoop w start (if v2 then 0x40000000 else 0) (← fuel w) then initOcr w v2
  else giveUp w .initTimeout

/-- From CMD8 on. -/
def initVersion : Dev Bool := do
  let r ← sendCmd w 8 0x000001AA 4
  if r.1 &&& 0x80 ≠ 0 then giveUp w .cmd8
  else if r.1 &&& 0x04 ≠ 0 then initReady w false
  else if r.2.getD 2 0 &&& 0x0F ≠ 0x01 ∨ r.2.getD 3 0 ≠ 0xAA then giveUp w .cmd8
  else initReady w true

/-- `sd_init`. -/
def sdInit : Dev Bool := do
  setCard fun _ => { SdCard.cleared with lastError := .noCard }
  signal (.baud initHz)
  cs false
  clocks w 10
  cs true
  let start ← now w
  if ← probeLoop w start (← fuel w) then initVersion w
  else giveUp w .noCard

/-! ### Blocks -/

/-- `addr_of`. -/
def addrOf (c : SdCard) (lba : UInt32) : UInt32 := if c.blockAddressed then lba else lba * 512

/-- `read_once`. -/
def readOnce (lba : UInt32) (buf : List UInt8) : Dev (Bool × List UInt8) := do
  cs true
  if ← waitIdle w busyMs then
    if (← sendCmd w 17 (addrOf (← card) lba) 0).1 = 0 then
      let r ← readData w buf 512 true
      release w
      return r
    else
      release w
      return (false, buf)
  else
    release w
    return (false, buf)

/-- Whether a block can be asked for. -/
def SdCard.has (c : SdCard) (lba : UInt32) : Bool := c.ready && !(c.blocks ≠ 0 && lba ≥ c.blocks)

/-- `sd_read_block` with a buffer: whether it succeeds, and the buffer. -/
def sdReadBlock (lba : UInt32) (buf : List UInt8) : Dev (Bool × List UInt8) := do
  if (← card).has lba then
    let r ← readOnce w lba buf
    if r.1 then return r
    else do
      setCard fun c => { c with retries := c.retries + 1 }
      readOnce w lba r.2
  else return (false, buf)

/-- The loop that waits for the data response. -/
def response : Nat → UInt8 → Dev UInt8
  | 0, r => pure r
  | n + 1, _ => do
    let r ← rx1 w
    if r &&& 0x11 = 0x01 then return r
    else response n r

/-- The block that `sd_write_block` sends, and whether the card has taken it. -/
def writeData (buf : List UInt8) : Dev Bool := do
  tx [0xFF, 0xFE]
  tx buf
  let crc := sdCrc16 buf
  tx [(crc >>> 8).toUInt8, crc.toUInt8]
  let resp ← response w 16 0xFF
  if resp &&& 0x1F = 0x05 then waitIdle w busyMs
  else return false

/-- `sd_write_block` of 512 bytes. -/
def sdWriteBlock (lba : UInt32) (buf : List UInt8) : Dev Bool := do
  if (← card).has lba then
    cs true
    if ← waitIdle w busyMs then
      if (← sendCmd w 24 (addrOf (← card) lba) 0).1 = 0 then
        let ok ← writeData w buf
        release w
        return ok
      else
        release w
        return false
    else
      release w
      return false
  else return false

/-- `sd_alive`. -/
def sdAlive : Dev Bool := do
  if (← card).ready then
    let r ← cmdTxn w 13 0 1
    return r.1 = 0 && r.2.getD 0 0 = 0
  else return false

end Wire

end RPCortex.Sd
