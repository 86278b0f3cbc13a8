import RPCortex.Abi.Ptrcheck

/-! `framebuf.cpp` and the drawing calls of `api.cpp`.  A `FrameBuf` is three words in the memory of
the package; every pixel reads them again, so a drawing that reaches them changes where it goes on.
A C `int` is an `Int32`. -/

namespace RPCortex.Abi

open Lib

/-- `FrameBuf`. -/
structure FrameBuf where
  buf : UInt32
  w : Int32
  h : Int32
  deriving DecidableEq

/-- `fb_bytes`. -/
def fbBytes (w h : Int32) : Int32 := w * ((h + 7) / 8)

/-- The word at `a`. -/
def wordAt (bytes : UInt32 → UInt8) (a : UInt32) : UInt32 :=
  (bytes a).toUInt32 ||| (bytes (a + 1)).toUInt32 <<< 8 ||| (bytes (a + 2)).toUInt32 <<< 16 |||
    (bytes (a + 3)).toUInt32 <<< 24

/-- The frame at `f`. -/
def frameAt (bytes : UInt32 → UInt8) (f : UInt32) : FrameBuf :=
  ⟨wordAt bytes f, (wordAt bytes (f + 4)).toInt32, (wordAt bytes (f + 8)).toInt32⟩

/-- Load a word through an argument. -/
def loadWord (p a : UInt32) : Act UInt32 := do
  let b0 ← Prog.call (.load (.arg p) a)
  let b1 ← Prog.call (.load (.arg p) (a + 1))
  let b2 ← Prog.call (.load (.arg p) (a + 2))
  let b3 ← Prog.call (.load (.arg p) (a + 3))
  pure (b0.toUInt32 ||| b1.toUInt32 <<< 8 ||| b2.toUInt32 <<< 16 ||| b3.toUInt32 <<< 24)

/-- `f->w`. -/
def loadW (f : UInt32) : Act Int32 := do
  let v ← loadWord f (f + 4)
  pure v.toInt32

/-- `f->h`. -/
def loadH (f : UInt32) : Act Int32 := do
  let v ← loadWord f (f + 8)
  pure v.toInt32

/-- `f->buf`, `f->w` and `f->h`. -/
def loadFrame (f : UInt32) : Act FrameBuf := do
  let buf ← loadWord f f
  let w ← loadW f
  let h ← loadH f
  pure ⟨buf, w, h⟩

/-- `for (int i = 0; i < n; i++)`, with a bound that does not change. -/
def times (n : Int32) (body : Int32 → Act Unit) : Act Unit :=
  (List.range n.toInt.toNat).forM fun i => body (Int32.ofNat i)

/-- `for (int i = 0; i < bound; i++)`, with a bound that is read again before each pass.  An `int`
is never above `2 ^ 31 - 1`, so `2 ^ 31` passes are more than the loop can make. -/
def upTo (bound : Act Int32) (body : Int32 → Act Unit) : (passes : Nat) → Int32 → Act Unit
  | 0, _ => pure ()
  | passes + 1, i => do
    let b ← bound
    if i < b then do
      body i
      upTo bound body passes (i + 1)
    else pure ()

/-- `&f->buf[(y >> 3) * f->w + x]`. -/
def pixelAt (fb : FrameBuf) (x y : Int32) : UInt32 := fb.buf + ((y >>> 3) * fb.w + x).toUInt32

/-- `y & 7`, as the number of a bit. -/
def bitOf (y : Int32) : UInt8 := (y &&& 7).toUInt32.toUInt8

/-- `fb_pixel`. -/
def fbPixel (f : UInt32) (x y colour : Int32) : Act Unit :=
  if f = 0 then pure ()
  else do
    let fb ← loadFrame f
    if fb.buf = 0 then pure ()
    else if x < 0 ∨ y < 0 ∨ fb.w ≤ x ∨ fb.h ≤ y then pure ()
    else do
      let v ← Prog.call (.load (.pixels f) (pixelAt fb x y))
      let m : UInt8 := 1 <<< bitOf y
      let _ ← Prog.call (.store (.pixels f) (pixelAt fb x y)
        (if colour ≠ 0 then v ||| m else v &&& ~~~m))
      pure ()

/-- `fb_get`. -/
def fbGet (f : UInt32) (x y : Int32) : Act Int32 :=
  if f = 0 then pure 0
  else do
    let fb ← loadFrame f
    if fb.buf = 0 then pure 0
    else if x < 0 ∨ y < 0 ∨ fb.w ≤ x ∨ fb.h ≤ y then pure 0
    else do
      let v ← Prog.call (.load (.pixels f) (pixelAt fb x y))
      pure ((v >>> bitOf y) &&& 1).toUInt32.toInt32

/-- `fb_fill`. -/
def fbFill (f : UInt32) (colour : Int32) : Act Unit :=
  if f = 0 then pure ()
  else do
    let fb ← loadFrame f
    if fb.buf = 0 then pure ()
    else (List.range (fbBytes fb.w fb.h).toUInt32.toNat).forM fun i => do
      let _ ← Prog.call (.store (.pixels f) (fb.buf + UInt32.ofNat i)
        (if colour ≠ 0 then 0xff else 0))
      pure ()

/-- `fb_hline`. -/
def fbHline (f : UInt32) (x y len colour : Int32) : Act Unit :=
  times len fun i => fbPixel f (x + i) y colour

/-- `fb_vline`. -/
def fbVline (f : UInt32) (x y len colour : Int32) : Act Unit :=
  times len fun i => fbPixel f x (y + i) colour

/-- `fb_rect`. -/
def fbRect (f : UInt32) (x y w h colour filled : Int32) : Act Unit :=
  if w ≤ 0 ∨ h ≤ 0 then pure ()
  else if filled ≠ 0 then times h fun i => fbHline f x (y + i) w colour
  else do
    fbHline f x y w colour
    fbHline f x (y + h - 1) w colour
    fbVline f x y h colour
    fbVline f (x + w - 1) y h colour

/-- `FONT_FIRST`, `FONT_LAST`, `FONT_WIDTH` and `FONT_ADVANCE`. -/
def fontFirst : UInt8 := 0x20
def fontLast : UInt8 := 0x7e
def fontWidth : Nat := 5
def fontAdvance : Int32 := 6

/-- `kFont`: a byte for each column of a character. -/
def kFont : List UInt8 := [
  0x00, 0x00, 0x00, 0x00, 0x00, 0x00, 0x00, 0x5f, 0x00, 0x00, 0x00, 0x07, 0x00, 0x07, 0x00,
  0x14, 0x7f, 0x14, 0x7f, 0x14, 0x24, 0x2a, 0x7f, 0x2a, 0x12, 0x60, 0x12, 0x08, 0x24, 0x03,
  0x36, 0x49, 0x55, 0x22, 0x50, 0x00, 0x00, 0x07, 0x00, 0x00, 0x00, 0x1c, 0x22, 0x41, 0x00,
  0x00, 0x41, 0x22, 0x1c, 0x00, 0x00, 0x0a, 0x07, 0x0a, 0x00, 0x10, 0x10, 0x7c, 0x10, 0x10,
  0x00, 0x40, 0x20, 0x00, 0x00, 0x10, 0x10, 0x10, 0x10, 0x10, 0x00, 0x00, 0x40, 0x00, 0x00,
  0x40, 0x30, 0x08, 0x04, 0x03, 0x3e, 0x51, 0x49, 0x45, 0x3e, 0x00, 0x01, 0x7f, 0x00, 0x00,
  0x62, 0x51, 0x49, 0x49, 0x46, 0x41, 0x49, 0x49, 0x49, 0x36, 0x0f, 0x08, 0x08, 0x08, 0x7f,
  0x4f, 0x49, 0x49, 0x49, 0x31, 0x36, 0x49, 0x49, 0x49, 0x31, 0x01, 0x71, 0x09, 0x09, 0x07,
  0x36, 0x49, 0x49, 0x49, 0x36, 0x06, 0x49, 0x49, 0x49, 0x3e, 0x00, 0x00, 0x12, 0x00, 0x00,
  0x00, 0x20, 0x1a, 0x00, 0x00, 0x08, 0x14, 0x22, 0x41, 0x00, 0x12, 0x12, 0x12, 0x12, 0x12,
  0x41, 0x22, 0x14, 0x08, 0x00, 0x02, 0x51, 0x09, 0x06, 0x00, 0x3e, 0x41, 0x5d, 0x55, 0x0a,
  0x7e, 0x11, 0x11, 0x11, 0x7e, 0x7f, 0x49, 0x49, 0x49, 0x36, 0x3e, 0x41, 0x41, 0x41, 0x41,
  0x7f, 0x41, 0x41, 0x41, 0x3e, 0x7f, 0x49, 0x49, 0x49, 0x49, 0x7f, 0x09, 0x09, 0x09, 0x09,
  0x3e, 0x41, 0x41, 0x49, 0x79, 0x7f, 0x08, 0x08, 0x08, 0x7f, 0x00, 0x00, 0x7f, 0x00, 0x00,
  0x40, 0x40, 0x40, 0x40, 0x3f, 0x7f, 0x08, 0x14, 0x22, 0x41, 0x7f, 0x40, 0x40, 0x40, 0x40,
  0x7f, 0x02, 0x04, 0x02, 0x7f, 0x7f, 0x02, 0x04, 0x08, 0x7f, 0x3e, 0x41, 0x41, 0x41, 0x3e,
  0x7f, 0x09, 0x09, 0x09, 0x06, 0x3e, 0x41, 0x41, 0x61, 0x7e, 0x7f, 0x11, 0x11, 0x11, 0x6e,
  0x46, 0x49, 0x49, 0x49, 0x31, 0x01, 0x01, 0x7f, 0x01, 0x01, 0x3f, 0x40, 0x40, 0x40, 0x3f,
  0x1f, 0x20, 0x40, 0x20, 0x1f, 0x7f, 0x20, 0x10, 0x20, 0x7f, 0x63, 0x14, 0x08, 0x14, 0x63,
  0x07, 0x08, 0x78, 0x08, 0x07, 0x61, 0x51, 0x49, 0x45, 0x43, 0x00, 0x7f, 0x41, 0x00, 0x00,
  0x03, 0x04, 0x08, 0x10, 0x60, 0x00, 0x41, 0x7f, 0x00, 0x00, 0x04, 0x02, 0x01, 0x02, 0x04,
  0x40, 0x40, 0x40, 0x40, 0x40, 0x00, 0x00, 0x03, 0x00, 0x00, 0x20, 0x54, 0x54, 0x54, 0x78,
  0x7f, 0x44, 0x44, 0x44, 0x38, 0x38, 0x44, 0x44, 0x44, 0x28, 0x38, 0x44, 0x44, 0x44, 0x7f,
  0x38, 0x54, 0x54, 0x54, 0x58, 0x08, 0x7e, 0x09, 0x01, 0x02, 0x4c, 0x52, 0x52, 0x52, 0x3e,
  0x7f, 0x04, 0x04, 0x04, 0x78, 0x00, 0x00, 0x7d, 0x00, 0x00, 0x20, 0x40, 0x40, 0x44, 0x3d,
  0x7f, 0x10, 0x10, 0x28, 0x44, 0x00, 0x7f, 0x40, 0x00, 0x00, 0x7c, 0x04, 0x7c, 0x04, 0x78,
  0x7c, 0x04, 0x04, 0x04, 0x78, 0x38, 0x44, 0x44, 0x44, 0x38, 0x7e, 0x12, 0x12, 0x0c, 0x00,
  0x08, 0x14, 0x14, 0x7c, 0x00, 0x7c, 0x08, 0x04, 0x04, 0x04, 0x48, 0x54, 0x54, 0x54, 0x24,
  0x04, 0x3f, 0x44, 0x40, 0x00, 0x3c, 0x40, 0x40, 0x40, 0x3c, 0x1c, 0x20, 0x40, 0x20, 0x1c,
  0x3c, 0x40, 0x30, 0x40, 0x3c, 0x44, 0x28, 0x10, 0x28, 0x44, 0x4c, 0x50, 0x50, 0x50, 0x3c,
  0x44, 0x64, 0x54, 0x4c, 0x44, 0x00, 0x08, 0x36, 0x41, 0x00, 0x00, 0x00, 0x7f, 0x00, 0x00,
  0x00, 0x41, 0x36, 0x08, 0x00, 0x04, 0x08, 0x04, 0x08, 0x04]

/-- A character of `fb_text`. -/
def fbChar (f : UInt32) (c : UInt8) (x y colour : Int32) : Act Unit :=
  let c := if c < fontFirst ∨ fontLast < c then 63 else c
  (List.range fontWidth).forM fun col => (List.range 7).forM fun row =>
    if (kFont.getD ((c - fontFirst).toNat * fontWidth + col) 0).toNat.testBit row then
      fbPixel f (x + Int32.ofNat col) (y + Int32.ofNat row) colour
    else pure ()

/-- The loop of `fb_text`, which follows the string until a terminator is read. -/
def fbChars (f s : UInt32) (colour y : Int32) : (passes : Nat) → (k : UInt32) → Int32 → Act Unit
  | 0, _, _ => pure ()
  | passes + 1, k, x => do
    let c ← Prog.call (.load (.arg s) (s + k))
    if c = 0 then pure ()
    else do
      fbChar f c x y colour
      fbChars f s colour y passes (k + 1) (x + fontAdvance)

/-- `fb_text`, for at most `passes` characters. -/
def fbText (passes : Nat) (f s : UInt32) (x y colour : Int32) : Act Unit :=
  if f = 0 ∨ s = 0 then pure () else fbChars f s colour y passes 0 x

/-- `fb_blit`. -/
def fbBlit (dst src : UInt32) (x y transparent : Int32) : Act Unit :=
  if dst = 0 ∨ src = 0 then pure ()
  else upTo (loadH src) (fun sy => upTo (loadW src) (fun sx => do
    let c ← fbGet src sx sy
    if c = transparent then pure ()
    else fbPixel dst (x + sx) (y + sy) c) (2 ^ 31) 0) (2 ^ 31) 0

/-- One pixel of `fb_scroll`. -/
def scrollPixel (f : UInt32) (dx dy x y : Int32) : Act Unit := do
  let fb ← loadFrame f
  let c ← if 0 ≤ x - dx ∧ 0 ≤ y - dy ∧ x - dx < fb.w ∧ y - dy < fb.h then
      fbGet f (x - dx) (y - dy)
    else pure 0
  fbPixel f x y c

/-- `fb_scroll`. -/
def fbScroll (f : UInt32) (dx dy : Int32) : Act Unit :=
  if f = 0 then pure ()
  else do
    let fb ← loadFrame f
    if fb.buf = 0 ∨ (dx = 0 ∧ dy = 0) then pure ()
    else
      let xStart := if 0 < dx then fb.w - 1 else 0
      let xStep := if 0 < dx then -1 else 1
      let yStart := if 0 < dy then fb.h - 1 else 0
      let yStep := if 0 < dy then -1 else 1
      upTo (loadH f) (fun i => upTo (loadW f) (fun j =>
        scrollPixel f dx dy (xStart + j * xStep) (yStart + i * yStep)) (2 ^ 31) 0) (2 ^ 31) 0

/-! ### The calls -/

/-- `sizeof(FwFrameBuf)`. -/
def sizeofFrame : UInt32 := 12

/-- `ok_fb`. -/
def okFb (mem : Option TaskAppMem) (f : UInt32) (acc : PtrAccess) : Act Bool := do
  if ← okRange mem ⟨.arg f, f, sizeofFrame, .read⟩ then do
    let fb ← loadFrame f
    if fb.w ≤ 0 ∨ fb.h ≤ 0 then pure false
    else if fbBytes fb.w fb.h ≤ 0 then pure false
    else okRange mem ⟨.pixels f, fb.buf, (fbBytes fb.w fb.h).toUInt32, acc⟩
  else pure false

/-- The drawing calls on a frame, with their arguments. -/
inductive Draw
  | fill (c : Int32)
  | pixel (x y c : Int32)
  | get (x y : Int32)
  | hline (x y n c : Int32)
  | rect (x y w h c fi : Int32)
  | text (s : UInt32) (x y c : Int32)
  | blit (s : UInt32) (x y t : Int32)
  | scroll (dx dy : Int32)

/-- `fw_fb_fill` and the calls like it: the check, then the drawing. -/
def checked (mem : Option TaskAppMem) (f : UInt32) (acc : PtrAccess) (draw : Act Unit) :
    Act Unit := do
  if ← okFb mem f acc then draw else pure ()

/-- `fw_fb_text`. -/
def fwFbText (mem : Option TaskAppMem) (passes : Nat) (f s : UInt32) (x y c : Int32) : Act Unit :=
  checked mem f .write do
    if ← okS mem s then fbText passes f s x y c else pure ()

/-- `fw_fb_get`. -/
def fwFbGet (mem : Option TaskAppMem) (f : UInt32) (x y : Int32) : Act Unit :=
  checked mem f .read do
    let _ ← fbGet f x y
    pure ()

/-- `fw_fb_blit`. -/
def fwFbBlit (mem : Option TaskAppMem) (f s : UInt32) (x y t : Int32) : Act Unit :=
  checked mem f .write (checked mem s .read (fbBlit f s x y t))

/-- A call on the frame at `f`; the text loop is cut after `passes` characters. -/
def Draw.run (mem : Option TaskAppMem) (passes : Nat) (f : UInt32) : Draw → Act Unit
  | .fill c => checked mem f .write (fbFill f c)
  | .pixel x y c => checked mem f .write (fbPixel f x y c)
  | .get x y => fwFbGet mem f x y
  | .hline x y n c => checked mem f .write (fbHline f x y n c)
  | .rect x y w h c fi => checked mem f .write (fbRect f x y w h c fi)
  | .text s x y c => fwFbText mem passes f s x y c
  | .blit s x y t => fwFbBlit mem f s x y t
  | .scroll dx dy => checked mem f .write (fbScroll f dx dy)

end RPCortex.Abi
