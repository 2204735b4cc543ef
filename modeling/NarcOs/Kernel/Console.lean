import NarcOs.Kernel.Font8x16
import NarcOs.Lib.Raster
import NarcOs.Lib.Word64

/-!
# The framebuffer console

`kernel/console.c`. The memory is that of the framebuffer, from its address on. A
computation stops at `none` when it reads or writes a byte behind the `height * pitch`
bytes of the framebuffer, when an offset does not fit in 64 bits, or when it would
dereference a NULL framebuffer.
-/

namespace NarcOs

def fontWidth : Nat := 8
def fontHeight : Nat := 16
def limineFramebufferRgb : Nat := 1

/-- `struct limine_framebuffer` -/
structure Framebuffer where
  address : Nat
  width : Nat
  height : Nat
  pitch : Nat
  bpp : Nat
  memoryModel : Nat
  redMaskSize : Nat
  redMaskShift : Nat
  greenMaskSize : Nat
  greenMaskShift : Nat
  blueMaskSize : Nat
  blueMaskShift : Nat

/-- `struct limine_framebuffer_response`, with `none` for NULL. -/
structure FramebufferResponse where
  framebufferCount : Nat
  framebuffers : Option (Nat → Option Framebuffer)

/-- The console's variables, the bytes of the framebuffer, and what has been sent to
the serial port. -/
structure FbConsole where
  fb : Option Framebuffer
  textCols : Nat
  textRows : Nat
  cursorCol : Nat
  cursorRow : Nat
  mem : Mem
  serial : List UInt8

def fg : Nat := 0x00e6e6e6
def bg : Nat := 0x00000000

def forRect (w h : Nat) (body : Nat → Nat → FbConsole → Option FbConsole) (c : FbConsole) : Option FbConsole :=
  (List.range h).foldlM (fun c y => (List.range w).foldlM (fun c x => body x y c) c) c

namespace Framebuffer

def scaleChannel (value bits : Nat) : Nat :=
  if bits = 0 then 0
  else if bits ≥ 32 then value
  else (value * (2 ^ bits - 1) / 255) % 2 ^ 32

/-- The shifts are meant to be below 32; nothing below depends on the value. -/
def packRgb (fb : Framebuffer) (rgb : Nat) : Nat :=
  (scaleChannel (rgb >>> 16 &&& 0xff) fb.redMaskSize <<< fb.redMaskShift |||
    scaleChannel (rgb >>> 8 &&& 0xff) fb.greenMaskSize <<< fb.greenMaskShift |||
    scaleChannel (rgb &&& 0xff) fb.blueMaskSize <<< fb.blueMaskShift) % 2 ^ 32

end Framebuffer

namespace FbConsole

-- ---------------------------------------------------------------------------
-- Bytes
-- ---------------------------------------------------------------------------

def serialPutc (c : FbConsole) (char : UInt8) : FbConsole := { c with serial := c.serial ++ [char] }

def serialPuts (c : FbConsole) (s : List UInt8) : FbConsole := { c with serial := c.serial ++ s }

/-- `base[offset]` -/
def load (c : FbConsole) (fb : Framebuffer) (offset : Nat) : Option UInt8 :=
  if offset < fb.height * fb.pitch then some (c.mem offset) else none

/-- The bytes are stored at `base + offset`. -/
def store (c : FbConsole) (fb : Framebuffer) (offset : Nat) (bytes : List UInt8) : Option FbConsole :=
  if offset + bytes.length ≤ fb.height * fb.pitch then some { c with mem := c.mem.write offset bytes } else none

-- ---------------------------------------------------------------------------
-- Drawing
-- ---------------------------------------------------------------------------

def putPixel (c : FbConsole) (x y rgb : Nat) : Option FbConsole :=
  match c.fb with
  | none => some c
  | some fb =>
    if x ≥ fb.width ∨ y ≥ fb.height then some c
    else do
      let row ← mul64 y fb.pitch
      let pixel := fb.packRgb rgb
      if fb.bpp = 32 then
        let left ← mul64 x 4
        let offset ← add64 row left
        c.store fb offset (toLE 4 pixel)
      else if fb.bpp = 24 then
        let left ← mul64 x 3
        let offset ← add64 row left
        c.store fb offset (toLE 3 pixel)
      else some c

def fillRect (c : FbConsole) (x y w h rgb : Nat) : Option FbConsole :=
  forRect w h (fun px py c => do
    let px ← add64 x px
    let py ← add64 y py
    c.putPixel px py rgb) c

def glyphColour (char : UInt8) (x y : Nat) : Nat := if (fontRow char y).testBit (7 - x) then fg else bg

def drawGlyph (c : FbConsole) (col row : Nat) (char : UInt8) : Option FbConsole := do
  let char := if char ≥ 128 then 63 else char
  let x₀ ← mul64 col fontWidth
  let y₀ ← mul64 row fontHeight
  forRect fontWidth fontHeight (fun x y c => do
    let px ← add64 x₀ x
    let py ← add64 y₀ y
    c.putPixel px py (glyphColour char x y)) c

/-- `base[i] = base[i + line_bytes]` -/
def moveByte (fb : Framebuffer) (lineBytes : Nat) (c : FbConsole) (i : Nat) : Option FbConsole := do
  let offset ← add64 i lineBytes
  let byte ← c.load fb offset
  c.store fb i [byte]

def scrollOneLine (c : FbConsole) : Option FbConsole :=
  match c.fb with
  | none => none
  | some fb => do
    let lineBytes ← mul64 fontHeight fb.pitch
    let kept ← sub64 fb.height fontHeight
    let keepBytes ← mul64 kept fb.pitch
    let c ← (List.range keepBytes).foldlM (moveByte fb lineBytes) c
    let c ← c.fillRect 0 kept fb.width fontHeight bg
    let last ← sub64 c.textRows 1
    some { c with cursorRow := last }

-- ---------------------------------------------------------------------------
-- The console
-- ---------------------------------------------------------------------------

def consoleClear (c : FbConsole) : Option FbConsole :=
  match c.fb with
  | none => some c
  | some fb => do
    let c ← c.fillRect 0 0 fb.width fb.height bg
    some { c with cursorCol := 0, cursorRow := 0 }

/-- `true` for the 0 of `console_init`. -/
def consoleInit (c : FbConsole) (response : Option FramebufferResponse) : Option (Bool × FbConsole) :=
  match response.bind fun r => if r.framebufferCount = 0 then none else r.framebuffers with
  | none => some (false, c.serialPuts "[panic] Limine did not provide a framebuffer\n".toUTF8.toList)
  | some framebuffers =>
    match framebuffers 0 with
    | none => some (false, { c.serialPuts "[panic] unsupported framebuffer format\n".toUTF8.toList with fb := none })
    | some fb =>
      if fb.address = 0 ∨ fb.memoryModel ≠ limineFramebufferRgb ∨ (fb.bpp ≠ 24 ∧ fb.bpp ≠ 32) ∨
          fb.width < fontWidth ∨ fb.height < fontHeight then
        some (false, { c.serialPuts "[panic] unsupported framebuffer format\n".toUTF8.toList with fb := none })
      else do
        let c := { c with
          fb := some fb
          textCols := fb.width / fontWidth
          textRows := fb.height / fontHeight
          cursorCol := 0
          cursorRow := 0 }
        let c ← c.consoleClear
        some (true, c)

/-- `cursor_col = 0; cursor_row++` -/
def nextRow (c : FbConsole) : FbConsole := { c with cursorCol := 0, cursorRow := c.cursorRow + 1 }

/-- The end of `console_putc`. -/
def scrollWhenBelow (c : FbConsole) : Option FbConsole := if c.cursorRow ≥ c.textRows then c.scrollOneLine else some c

def putGlyph (c : FbConsole) (char : UInt8) : Option FbConsole := do
  let c ← c.drawGlyph c.cursorCol c.cursorRow char
  let c := { c with cursorCol := c.cursorCol + 1 }
  if c.cursorCol ≥ c.textCols then c.nextRow.scrollWhenBelow else c.scrollWhenBelow

/-- `console_putc` on everything but a tab. -/
def putcPlain (c : FbConsole) (char : UInt8) : Option FbConsole :=
  let c := c.serialPutc char
  match c.fb with
  | none => some c
  | some _ =>
    if char = 10 then c.nextRow.scrollWhenBelow
    else if char = 13 then scrollWhenBelow { c with cursorCol := 0 }
    else if char ≥ 32 then c.putGlyph char
    else c.scrollWhenBelow

/-- A tab calls `console_putc` again, but only with spaces. -/
def consolePutc (c : FbConsole) (char : UInt8) : Option FbConsole :=
  if char = 9 then
    let c := c.serialPutc char
    match c.fb with
    | none => some c
    | some _ => (List.range (4 - (c.cursorCol &&& 3))).foldlM (fun c _ => c.putcPlain 32) c
  else c.putcPlain char

def consoleWrite (c : FbConsole) (s : List UInt8) : Option FbConsole := s.foldlM consolePutc c

end FbConsole

end NarcOs
