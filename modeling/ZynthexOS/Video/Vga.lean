import ZynthexOS.Drivers.Pic
import ZynthexOS.Lib.Scan
import ZynthexOS.Text.Format

/-! `video/vga.c`. The screen memory and the back buffer are functions of the cell's
index; a string is the bytes from its address on. -/
namespace ZynthexOS.Video
open Text Drivers Lib.Scan

/-- `VGA_WIDTH` and `VGA_HEIGHT`. -/
def vgaWidth : Nat := 80

def vgaHeight : Nat := 25

/-- `default_terminal_color`. -/
def defaultTerminalColor : UInt8 := 0x07

/-- The variables of `vga.c` and what has been written to the ports. -/
@[ext]
structure Screen where
  terminalRow : Nat
  terminalColumn : Nat
  terminalColor : UInt8
  terminalBuffer : Nat → UInt16
  backBuffer : Nat → UInt16
  ports : List Outb

/-- `vga_entry`. -/
def vgaEntry (uc color : UInt8) : UInt16 := uc.toUInt16 ||| color.toUInt16 <<< 8

/-- `vga_entry(' ', terminal_color)`. -/
def Screen.blank (s : Screen) : UInt16 := vgaEntry 0x20 s.terminalColor

/-- The cell at the cursor. -/
def Screen.index (s : Screen) : Nat := s.terminalRow * vgaWidth + s.terminalColumn

/-- A store to `back_buffer`. -/
def Screen.setBack (s : Screen) (i : Nat) (value : UInt16) : Screen :=
  { s with backBuffer := Function.update s.backBuffer i value }

/-- A store to `terminal_buffer`. -/
def Screen.setTerminal (s : Screen) (i : Nat) (value : UInt16) : Screen :=
  { s with terminalBuffer := Function.update s.terminalBuffer i value }

/-- `vga_flush`. -/
def vgaFlush (s : Screen) : Screen :=
  forRange (fun s i => s.setTerminal i (s.backBuffer i)) 0 (vgaWidth * vgaHeight) s

/-- `vga_read_cell`. -/
def vgaReadCell (s : Screen) (row col : Nat) : UInt16 :=
  if row ≥ vgaHeight ∨ col ≥ vgaWidth then 0 else s.backBuffer (row * vgaWidth + col)

/-- `vga_write_cell`. -/
def vgaWriteCell (s : Screen) (row col : Nat) (value : UInt16) : Screen :=
  if row ≥ vgaHeight ∨ col ≥ vgaWidth then s
  else (s.setBack (row * vgaWidth + col) value).setTerminal (row * vgaWidth + col) value

/-- `vga_update_cursor`. -/
def vgaUpdateCursor (s : Screen) : Screen :=
  let pos := UInt16.ofNat s.index
  { s with ports := s.ports ++
      [⟨0x3D4, 0x0F⟩, ⟨0x3D5, pos.toUInt8⟩, ⟨0x3D4, 0x0E⟩, ⟨0x3D5, (pos >>> 8).toUInt8⟩] }

/-- `vga_set_color`. -/
def vgaSetColor (s : Screen) (color : UInt8) : Screen := { s with terminalColor := color }

/-- `vga_set_cursor`. -/
def vgaSetCursor (s : Screen) (row col : Nat) : Screen :=
  let s := if row < vgaHeight then { s with terminalRow := row } else s
  if col < vgaWidth then { s with terminalColumn := col } else s

/-- `vga_scroll`. -/
def vgaScroll (s : Screen) : Screen :=
  if s.terminalRow ≥ vgaHeight then
    let s := forRange (fun s y =>
      forRange (fun s x => s.setBack ((y - 1) * vgaWidth + x) (s.backBuffer (y * vgaWidth + x)))
        0 vgaWidth s) 1 vgaHeight s
    let s := forRange (fun s x => s.setBack ((vgaHeight - 1) * vgaWidth + x) s.blank) 0 vgaWidth s
    vgaFlush { s with terminalRow := vgaHeight - 1 }
  else s

/-- `vga_clear`. -/
def vgaClear (s : Screen) : Screen :=
  let s := forRange (fun s y =>
    forRange (fun s x => s.setBack (y * vgaWidth + x) s.blank) 0 vgaWidth s) 0 vgaHeight s
  vgaFlush { s with terminalRow := 0, terminalColumn := 0 }

/-- Where a backspace puts the cursor. -/
def vgaRetreat (s : Screen) : Screen :=
  if s.terminalColumn > 0 then { s with terminalColumn := s.terminalColumn - 1 }
  else if s.terminalRow > 0 then
    { s with terminalRow := s.terminalRow - 1, terminalColumn := vgaWidth - 1 }
  else s

/-- Where a character puts the cursor. -/
def vgaAdvance (s : Screen) : Screen :=
  if s.terminalColumn + 1 ≥ vgaWidth then
    { s with terminalColumn := 0, terminalRow := s.terminalRow + 1 }
  else { s with terminalColumn := s.terminalColumn + 1 }

/-- `vga_putchar`. -/
def vgaPutchar (s : Screen) (c : UInt8) : Screen :=
  if c = newline then
    vgaScroll { s with terminalColumn := 0, terminalRow := s.terminalRow + 1 }
  else if c = backspace then
    let s := vgaRetreat s
    vgaUpdateCursor (s.setTerminal s.index s.blank)
  else
    let s := vgaAdvance (s.setBack s.index (vgaEntry c s.terminalColor))
    vgaUpdateCursor (vgaFlush (vgaScroll s))

/-- `vga_print`. -/
def vgaPrint (s : Screen) (str : List UInt8) : Screen :=
  (str.takeWhile (· ≠ 0)).foldl vgaPutchar s

/-- `vga_print_color`. -/
def vgaPrintColor (s : Screen) (str : List UInt8) (color : UInt8) : Screen :=
  let s := vgaPrint { s with terminalColor := color } str
  { s with terminalColor := defaultTerminalColor }

/-- The loop of `vga_print_dec` that prints `i` digits, the last one first. -/
def printBack (s : Screen) (buffer : Chars) : Nat → Screen
  | 0 => s
  | j + 1 => printBack (vgaPrint s [buffer j, 0]) buffer j

/-- `vga_print_dec`, whose first loop is given `n` tests. -/
def vgaPrintDec (n : Nat) (s : Screen) (num : UInt32) (buffer : Chars) : Option Screen :=
  if num = 0 then some (vgaPrint s (ascii "0"))
  else do
    let (buffer, i) ← fillDigits 11 (fun digit => 48 + digit.toUInt8) 10 n buffer 0 num
    some (printBack s buffer i)

/-- `hex_chars` of `vga_print_hex`. -/
def hexChars : List UInt8 := ascii "0123456789ABCDEF"

/-- `buffer` of `vga_print_hex`. -/
def hexBuffer (value : UInt32) : List UInt8 :=
  ascii "0x" ++ (List.range 8).map fun i =>
    hexChars.getD ((value >>> (.ofNat (28 - i * 4))) &&& 0xF).toNat 0

/-- `vga_print_hex`. -/
def vgaPrintHex (s : Screen) (value : UInt32) : Screen := vgaPrint s (hexBuffer value)

end ZynthexOS.Video
