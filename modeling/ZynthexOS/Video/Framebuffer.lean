import ZynthexOS.Lib.Stores
import ZynthexOS.Text.Strings
import ZynthexOS.Video.Font8x8

/-! `video/framebuffer.c`. A drawing call is the list of the bytes it stores. Addresses
and unsigned numbers wrap at 32 bits; so do the signed ones of `framebuffer_draw_line`,
whose loop is given the number of its rounds, since it need not end. -/
namespace ZynthexOS.Video
open Text Lib.Stores

/-- `fb_info_t`. -/
structure FbInfo where
  addr : UInt32
  pitch : UInt32
  width : UInt32
  height : UInt32
  bpp : UInt8
  redPos : UInt8
  redMask : UInt8
  greenPos : UInt8
  greenMask : UInt8
  bluePos : UInt8
  blueMask : UInt8
  backbuffer : UInt32
  backbufferPitch : UInt32
  available : Bool

/-- The bytes stored by a call. -/
abbrev Drawing := List (Store UInt32 UInt8)

/-- `fb_target_base`. -/
def fbTargetBase (fb : FbInfo) : UInt32 := if fb.backbuffer ≠ 0 then fb.backbuffer else fb.addr

/-- `fb_target_pitch`. -/
def fbTargetPitch (fb : FbInfo) : UInt32 :=
  if fb.backbuffer ≠ 0 then fb.backbufferPitch else fb.pitch

/-- `framebuffer.bpp / 8`. -/
def FbInfo.bppBytes (fb : FbInfo) : UInt32 := (fb.bpp / 8).toUInt32

/-- One colour of `fb_pack_color`. -/
def packPart (value : UInt32) (mask pos : UInt8) : UInt32 :=
  if mask ≠ 0 then (value >>> (8 - mask.toUInt32)) <<< pos.toUInt32 else 0

/-- `fb_pack_color`. -/
def fbPackColor (fb : FbInfo) (argb : UInt32) : UInt32 :=
  packPart (argb >>> 16 &&& 0xFF) fb.redMask fb.redPos |||
    packPart (argb >>> 8 &&& 0xFF) fb.greenMask fb.greenPos |||
    packPart (argb &&& 0xFF) fb.blueMask fb.bluePos

/-- The lowest `n` bytes of a pixel, the lowest first. -/
def pixelBytes (dst packed : UInt32) (n : Nat) : Drawing :=
  (List.range n).map fun i => const (dst + .ofNat i) (packed >>> (.ofNat (8 * i))).toUInt8

/-- `fb_write_pixel`. -/
def fbWritePixel (dst packed bytesPerPixel : UInt32) : Drawing :=
  match bytesPerPixel with
  | 4 => pixelBytes dst packed 4
  | 3 => pixelBytes dst packed 3
  | 2 => pixelBytes dst packed 2
  | _ => []

/-- `for (uint32_t i = 0; i < n; i++)`. -/
def below (n : UInt32) (body : UInt32 → Drawing) : Drawing := upTo n.toNat fun i => body (.ofNat i)

/-- `framebuffer_set_backbuffer`. -/
def framebufferSetBackbuffer (fb : FbInfo) (buf pitch : UInt32) : FbInfo :=
  { fb with backbuffer := buf, backbufferPitch := pitch }

/-- `memcpy`. -/
def memcpy (dest src n : UInt32) : Drawing := below n fun i => [copy (dest + i) (src + i)]

/-- `framebuffer_flush`. -/
def framebufferFlush (fb : FbInfo) : Drawing :=
  if ¬ fb.available ∨ fb.backbuffer = 0 then []
  else if fb.bppBytes = 0 then []
  else
    let copyBytes := fb.width * fb.bppBytes
    below fb.height fun y =>
      memcpy (fb.addr + y * fb.pitch) (fb.backbuffer + y * fb.backbufferPitch) copyBytes

/-- `framebuffer_clear`. -/
def framebufferClear (fb : FbInfo) (argb : UInt32) : Drawing :=
  if ¬ fb.available then []
  else
    let packed := fbPackColor fb argb
    below fb.height fun y =>
      let row := fbTargetBase fb + y * fbTargetPitch fb
      below fb.width fun x => fbWritePixel (row + x * fb.bppBytes) packed fb.bppBytes

/-- A `char` as `uint32_t`. -/
def charCode (c : UInt8) : UInt32 := c.toInt8.toInt32.toUInt32

/-- The row of the glyph that `framebuffer_draw_char` draws for a character. -/
def glyphRow (c : UInt8) (row : UInt32) : UInt8 :=
  let c := if charCode c < 32 ∨ charCode c > 127 then 63 else c
  (font8x8Basic.getD (charCode c - 32).toNat []).getD row.toNat 0

/-- `bits & (1u << (7 - col))`. -/
def glyphBit (c : UInt8) (row col : UInt32) : Bool :=
  (glyphRow c row).toUInt32 &&& (1 <<< (7 - col)) ≠ 0

/-- `framebuffer_draw_char`. -/
def framebufferDrawChar (fb : FbInfo) (x y : UInt32) (c : UInt8) (argb : UInt32) : Drawing :=
  if ¬ fb.available then []
  else if fb.bppBytes = 0 then []
  else
    let packed := fbPackColor fb argb
    below 8 fun row =>
      let dst := fbTargetBase fb + (y + row) * fbTargetPitch fb + x * fb.bppBytes
      below 8 fun col =>
        if glyphBit c row col then fbWritePixel (dst + col * fb.bppBytes) packed fb.bppBytes else []

/-- The loop of `framebuffer_draw_string`. -/
def drawStringFrom (fb : FbInfo) (y argb : UInt32) : UInt32 → List UInt8 → Drawing
  | _, [] => []
  | cursorX, c :: str =>
    if cursorX + 8 > fb.width then []
    else framebufferDrawChar fb cursorX y c argb ++ drawStringFrom fb y argb (cursorX + 8) str

/-- `framebuffer_draw_string`, where `none` is NULL and a string the bytes from its
address on. -/
def framebufferDrawString (fb : FbInfo) (x y : UInt32) (str : Option (List UInt8)) (argb : UInt32) :
    Drawing :=
  match str with
  | none => []
  | some str => if ¬ fb.available then [] else drawStringFrom fb y argb x (str.takeWhile (· ≠ 0))

/-- `ring_cos` and `ring_sin`. -/
def ringCos : List Int := [127, 115, 90, 49, 0, -49, -90, -115, -127, -115, -90, -49, 0, 49, 90, 115]

def ringSin : List Int := [0, 49, 90, 115, 127, 115, 90, 49, 0, -49, -90, -115, -127, -115, -90, -49]

/-- `(radius * table[idx]) / 127`, which C divides as unsigned numbers. -/
def ringOffset (radius : UInt32) (table : List Int) (idx : UInt32) : UInt32 :=
  radius * .ofInt (table.getD idx.toNat 0) / 127

/-- The dot of `framebuffer_progress_ring` at a point. -/
def ringDot (fb : FbInfo) (px py packed : UInt32) : Drawing :=
  if px < fb.width ∧ py < fb.height then
    let row := fbTargetBase fb + py * fbTargetPitch fb
    let row2 := fbTargetBase fb + (py + 1) * fbTargetPitch fb
    fbWritePixel (row + px * fb.bppBytes) packed fb.bppBytes ++
      (if px + 1 < fb.width then fbWritePixel (row + (px + 1) * fb.bppBytes) packed fb.bppBytes
        else []) ++
      (if py + 1 < fb.height then fbWritePixel (row2 + px * fb.bppBytes) packed fb.bppBytes else [])
  else []

/-- `framebuffer_progress_ring`. -/
def framebufferProgressRing (fb : FbInfo) (cx cy radius steps active color : UInt32) : Drawing :=
  if ¬ fb.available ∨ steps = 0 then []
  else if fb.bppBytes = 0 then []
  else
    let useSteps := if steps > 16 then 16 else steps
    below useSteps fun i =>
      let idx := (i * 16) / useSteps &&& 15
      let packed := fbPackColor fb (if i < active then color else 0x00404040)
      ringDot fb (cx + ringOffset radius ringCos idx) (cy + ringOffset radius ringSin idx) packed

/-- `framebuffer_putpixel`. -/
def framebufferPutpixel (fb : FbInfo) (x y argb : UInt32) : Drawing :=
  if ¬ fb.available then []
  else if x ≥ fb.width ∨ y ≥ fb.height then []
  else if fb.bppBytes = 0 then []
  else
    let dst := fbTargetBase fb + y * fbTargetPitch fb + x * fb.bppBytes
    fbWritePixel dst (fbPackColor fb argb) fb.bppBytes

/-- `if (w > max_w) w = max_w`. -/
def clamp (w maxW : UInt32) : UInt32 := if w > maxW then maxW else w

/-- `framebuffer_fill_rect`. -/
def framebufferFillRect (fb : FbInfo) (x y w h argb : UInt32) : Drawing :=
  if ¬ fb.available ∨ w = 0 ∨ h = 0 then []
  else if x ≥ fb.width ∨ y ≥ fb.height then []
  else
    let w := clamp w (fb.width - x)
    let h := clamp h (fb.height - y)
    if fb.bppBytes = 0 then []
    else
      let packed := fbPackColor fb argb
      let base := fbTargetBase fb + y * fbTargetPitch fb + x * fb.bppBytes
      below h fun yy =>
        let row := base + yy * fbTargetPitch fb
        below w fun xx => fbWritePixel (row + xx * fb.bppBytes) packed fb.bppBytes

/-- `colors` of `framebuffer_test_pattern`. -/
def barColors : List UInt32 :=
  [0x00FF0000, 0x0000FF00, 0x000000FF, 0x00FFFF00, 0x0000FFFF, 0x00FF00FF, 0x00FFFFFF, 0x00000000]

/-- `framebuffer_test_pattern`. -/
def framebufferTestPattern (fb : FbInfo) : Drawing :=
  if ¬ fb.available then []
  else
    let barW := fb.width / 8
    below 8 fun i =>
      let x := i * barW
      let w := if i = 7 then fb.width - x else barW
      framebufferFillRect fb x 0 w fb.height (barColors.getD i.toNat 0)

/-- One colour of a row of the gradient. -/
def gradientPart (top bottom : UInt32) (shift y height : UInt32) : UInt32 :=
  let top := (top >>> shift &&& 0xFF).toUInt8
  let bottom := (bottom >>> shift &&& 0xFF).toUInt8
  let change := (bottom.toUInt32.toInt32 - top.toUInt32.toInt32) * y.toInt32 / (height - 1).toInt32
  (top + change.toUInt32.toUInt8).toUInt32

/-- `framebuffer_fill_gradient_vert`. -/
def framebufferFillGradientVert (fb : FbInfo) (topArgb bottomArgb : UInt32) : Drawing :=
  if ¬ fb.available then []
  else
    let height := if fb.height ≠ 0 then fb.height else 1
    if fb.bppBytes = 0 then []
    else if height = 1 then
      let packed := fbPackColor fb (topArgb &&& 0x00FFFFFF)
      let row := fb.addr
      below fb.width fun x => fbWritePixel (row + x * fb.bppBytes) packed fb.bppBytes
    else
      below fb.height fun y =>
        let part := fun shift => gradientPart topArgb bottomArgb shift y height <<< shift
        let packed := fbPackColor fb (part 16 ||| part 8 ||| part 0)
        let row := fbTargetBase fb + y * fbTargetPitch fb
        below fb.width fun x => fbWritePixel (row + x * fb.bppBytes) packed fb.bppBytes

/-- The loop of `framebuffer_draw_line`, `n` rounds of it. -/
def drawLineLoop (fb : FbInfo) (argb : UInt32) (x1 y1 dx sx dy sy : Int32) :
    Nat → (x0 y0 err : Int32) → Drawing
  | 0, _, _, _ => []
  | n + 1, x0, y0, err =>
    framebufferPutpixel fb x0.toUInt32 y0.toUInt32 argb ++
      if x0 = x1 ∧ y0 = y1 then []
      else
        let e2 := 2 * err
        let (err, x0) := if e2 ≥ dy then (err + dy, x0 + sx) else (err, x0)
        let (err, y0) := if e2 ≤ dx then (err + dx, y0 + sy) else (err, y0)
        drawLineLoop fb argb x1 y1 dx sx dy sy n x0 y0 err

/-- `framebuffer_draw_line`. -/
def framebufferDrawLine (fb : FbInfo) (n : Nat) (x0 y0 x1 y1 : Int32) (argb : UInt32) : Drawing :=
  if ¬ fb.available then []
  else
    let dx := if x1 > x0 then x1 - x0 else x0 - x1
    let sx := if x0 < x1 then 1 else -1
    let dy := if y1 > y0 then y0 - y1 else y1 - y0
    let sy := if y0 < y1 then 1 else -1
    drawLineLoop fb argb x1 y1 dx sx dy sy n x0 y0 (dx + dy)

/-- `copy_bytes_per_pixel` of `framebuffer_blit`. -/
def copyBytesPerPixel (fb : FbInfo) (srcBpp : UInt8) : UInt32 :=
  let n := if srcBpp.toUInt32 < fb.bppBytes * 8 then (srcBpp / 8).toUInt32 else fb.bppBytes
  if n = 0 then fb.bppBytes else n

/-- `framebuffer_blit`. -/
def framebufferBlit (fb : FbInfo) (dstX dstY w h src srcPitch : UInt32) (srcBpp : UInt8) : Drawing :=
  if ¬ fb.available ∨ src = 0 ∨ w = 0 ∨ h = 0 then []
  else if dstX ≥ fb.width ∨ dstY ≥ fb.height then []
  else if fb.bppBytes = 0 ∨ srcBpp = 0 then []
  else
    let w := clamp w (fb.width - dstX)
    let h := clamp h (fb.height - dstY)
    let n := copyBytesPerPixel fb srcBpp
    below h fun yy =>
      let srow := src + yy * srcPitch
      let base := fbTargetBase fb + (dstY + yy) * fbTargetPitch fb + dstX * fb.bppBytes
      below w fun xx => below n fun b => [copy (base + (xx * fb.bppBytes + b)) (srow + (xx * n + b))]

/-- The calls that draw. -/
inductive DrawCall where
  | clear (argb : UInt32)
  | putpixel (x y argb : UInt32)
  | fillRect (x y w h argb : UInt32)
  | fillGradientVert (topArgb bottomArgb : UInt32)
  | drawLine (rounds : Nat) (x0 y0 x1 y1 : Int32) (argb : UInt32)
  | drawChar (x y : UInt32) (c : UInt8) (argb : UInt32)
  | drawString (x y : UInt32) (str : Option (List UInt8)) (argb : UInt32)
  | progressRing (cx cy radius steps active color : UInt32)
  | blit (dstX dstY w h src srcPitch : UInt32) (srcBpp : UInt8)
  | testPattern

def DrawCall.draw (fb : FbInfo) : DrawCall → Drawing
  | .clear argb => framebufferClear fb argb
  | .putpixel x y argb => framebufferPutpixel fb x y argb
  | .fillRect x y w h argb => framebufferFillRect fb x y w h argb
  | .fillGradientVert topArgb bottomArgb => framebufferFillGradientVert fb topArgb bottomArgb
  | .drawLine rounds x0 y0 x1 y1 argb => framebufferDrawLine fb rounds x0 y0 x1 y1 argb
  | .drawChar x y c argb => framebufferDrawChar fb x y c argb
  | .drawString x y str argb => framebufferDrawString fb x y str argb
  | .progressRing cx cy radius steps active color =>
    framebufferProgressRing fb cx cy radius steps active color
  | .blit dstX dstY w h src srcPitch srcBpp => framebufferBlit fb dstX dstY w h src srcPitch srcBpp
  | .testPattern => framebufferTestPattern fb

end ZynthexOS.Video
