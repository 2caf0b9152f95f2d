import ZynthexOS.Text.Strings
import ZynthexOS.Lib.Scan
import Mathlib.Logic.Function.Basic

/-! `core/console.c`. What `console_handle_char` gives to `vga_putchar` is returned with the
state. -/
namespace ZynthexOS.Core
open Text

/-- `CONSOLE_BUFFER_SIZE`. -/
def consoleBufferSize : Nat := 256

/-- `line_buffer` and `line_length`. -/
structure Console where
  lineBuffer : Nat → UInt8
  lineLength : Nat

/-- The loop of `console_init` and `console_clear_line`. -/
def zeroLine (lineBuffer : Nat → UInt8) : Nat → UInt8 :=
  Lib.Scan.forRange (fun buffer i => Function.update buffer i 0) 0 consoleBufferSize lineBuffer

/-- `console_init`. -/
def consoleInit (s : Console) : Console := ⟨zeroLine s.lineBuffer, 0⟩

/-- `console_handle_char`. -/
def consoleHandleChar (s : Console) (c : UInt8) : Console × List UInt8 :=
  if c = backspace then
    if s.lineLength > 0 then
      ({ lineBuffer := Function.update s.lineBuffer (s.lineLength - 1) 0
         lineLength := s.lineLength - 1 }, [backspace])
    else (s, [])
  else if c = newline then ({ s with lineLength := 0 }, [newline])
  else if s.lineLength < consoleBufferSize - 1 then
    ({ lineBuffer := Function.update s.lineBuffer s.lineLength c
       lineLength := s.lineLength + 1 }, [c])
  else (s, [])

/-- The string that `console_get_line` points to: the bytes of the buffer up to its
first NUL. -/
def consoleGetLine (s : Console) : List UInt8 :=
  ((List.range consoleBufferSize).map s.lineBuffer).takeWhile (· ≠ 0)

/-- `console_clear_line`. -/
def consoleClearLine (s : Console) : Console := ⟨zeroLine s.lineBuffer, 0⟩

/-- The loop clears the buffer and nothing behind it. -/
theorem zeroLine_apply (lineBuffer : Nat → UInt8) (i : Nat) :
    zeroLine lineBuffer i = if i < consoleBufferSize then 0 else lineBuffer i := by
  have loop := Lib.Scan.forRange_observe (fun buffer i => Function.update buffer i (0 : UInt8))
    (fun buffer i => buffer i) (fun _ _ => 0) (fun buffer f i => Function.update_apply buffer f 0 i)
    0 consoleBufferSize lineBuffer i
  simpa [zeroLine] using loop

end ZynthexOS.Core
