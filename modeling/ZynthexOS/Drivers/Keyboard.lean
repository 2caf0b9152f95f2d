import ZynthexOS.Drivers.Pic
import ZynthexOS.Text.Strings
import Mathlib.Data.Nat.Bitwise
import Mathlib.Logic.Function.Basic

/-! `drivers/keyboard.c`. The interrupt handler is given the scancode it reads from the
data port. -/
namespace ZynthexOS.Drivers
open Text

/-- `KEYBOARD_BUFFER_SIZE`. -/
def keyboardBufferSize : Nat := 256

/-- `keyboard_buffer`, `buffer_head` and `buffer_tail`. -/
structure Keyboard where
  keyboardBuffer : Nat → UInt8
  bufferHead : Nat
  bufferTail : Nat

/-- The variables before the first interrupt. -/
def keyboardStart : Keyboard := ⟨fun _ => 0, 0, 0⟩

/-- `keymap`, whose further entries are 0. -/
def keymap : List UInt8 :=
  [0, 27] ++ ascii "1234567890-=\x08" ++ ascii "\tqwertyuiop[]\n" ++ [0] ++ ascii "asdfghjkl;'`" ++
    [0] ++ ascii "\\zxcvbnm,./" ++ [0] ++ ascii "*" ++ [0] ++ ascii " "

/-- `keyboard_scancode_to_ascii`. -/
def keyboardScancodeToAscii (scancode : UInt8) : UInt8 :=
  if scancode < 128 then keymap.getD scancode.toNat 0 else 0

/-- `keyboard_irq_handler`: the state and what it writes to the ports. -/
def keyboardIrqHandler (s : Keyboard) (scancode : UInt8) : Keyboard × List Outb :=
  if scancode &&& 0x80 ≠ 0 then (s, picSendEoi 1)
  else
    let c := keyboardScancodeToAscii scancode
    let s :=
      if c ≠ 0 then
        { s with
          keyboardBuffer := Function.update s.keyboardBuffer s.bufferHead c
          bufferHead := (s.bufferHead + 1) % keyboardBufferSize }
      else s
    (s, picSendEoi 1)

/-- `keyboard_has_input`. -/
def keyboardHasInput (s : Keyboard) : Bool := s.bufferHead ≠ s.bufferTail

/-- `keyboard_getchar`: the state and the character. -/
def keyboardGetchar (s : Keyboard) : Keyboard × UInt8 :=
  if keyboardHasInput s then
    ({ s with bufferTail := (s.bufferTail + 1) % keyboardBufferSize }, s.keyboardBuffer s.bufferTail)
  else (s, 0)

/-- A key that goes up is no character. -/
theorem ascii_of_release (release : scancode &&& 0x80 ≠ 0) : keyboardScancodeToAscii scancode = 0 := by
  have high : ¬ scancode < 128 := by
    intro small
    have below : scancode.toNat < 2 ^ 7 := small
    apply release
    apply UInt8.toNat_inj.mp
    change scancode.toNat &&& 2 ^ 7 = 0
    rw [Nat.and_two_pow, Nat.testBit_lt_two_pow below]
    rfl
  rw [keyboardScancodeToAscii, if_neg high]

/-- What an interrupt does to the queue. -/
theorem keyboardIrqHandler_state : (keyboardIrqHandler s scancode).1 =
    if keyboardScancodeToAscii scancode ≠ 0 then
      { s with
        keyboardBuffer := Function.update s.keyboardBuffer s.bufferHead
          (keyboardScancodeToAscii scancode)
        bufferHead := (s.bufferHead + 1) % keyboardBufferSize }
    else s := by
  by_cases release : scancode &&& 0x80 ≠ 0
  · rw [keyboardIrqHandler, if_pos release, if_neg (not_not.mpr (ascii_of_release release))]
  · rw [keyboardIrqHandler, if_neg release]

end ZynthexOS.Drivers
