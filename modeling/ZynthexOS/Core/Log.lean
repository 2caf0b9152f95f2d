import ZynthexOS.Text.Strings
import Mathlib.Logic.Function.Basic

/-! `core/log.c`. A message is the bytes from its address on, of which those before the
first NUL are written. -/
namespace ZynthexOS.Core
open Text

/-- `LOG_BUFFER_SIZE`. -/
def logBufferSize : Nat := 8192

/-- `log_buffer`, `log_head` and `log_used`. -/
structure Log where
  logBuffer : Nat → UInt8
  logHead : Nat
  logUsed : Nat

/-- `log_start_index`. -/
def logStartIndex (s : Log) : Nat := if s.logUsed < logBufferSize then 0 else s.logHead

/-- One round of the loop of `log_write`. -/
def logChar (s : Log) (c : UInt8) : Log :=
  { logBuffer := Function.update s.logBuffer s.logHead c
    logHead := (s.logHead + 1) % logBufferSize
    logUsed := if s.logUsed < logBufferSize then s.logUsed + 1 else s.logUsed }

/-- `log_write`, where `none` is NULL. -/
def logWrite (s : Log) : Option (List UInt8) → Log
  | none => s
  | some message => (message.takeWhile (· ≠ 0)).foldl logChar s

/-- `log_init`. -/
def logInit (s : Log) : Log :=
  logWrite { s with logHead := 0, logUsed := 0 } (some (ascii "log: initialized\n"))

/-- The character of a digit of `log_write_hex`. -/
def hexDigit (nibble : UInt8) : UInt8 := if nibble < 10 then 48 + nibble else 65 + (nibble - 10)

/-- `buf` of `log_write_hex`. -/
def hexText (value : UInt32) : List UInt8 :=
  ascii "0x" ++ (List.range 8).map fun i =>
    hexDigit ((value >>> (.ofNat ((7 - i) * 4))) &&& 0xF).toUInt8

/-- `log_write_hex`. -/
def logWriteHex (s : Log) (value : UInt32) : Log := logWrite s (some (hexText value))

/-- `log_write_dec`. -/
def logWriteDec (s : Log) (value : UInt32) : Log := logWrite s (some (utoa value 10))

/-- `log_dump`: what it gives to the screen. -/
def logDump (s : Log) : List UInt8 :=
  ascii "[dmesg]\n" ++
    (List.range s.logUsed).map (fun i => s.logBuffer ((logStartIndex s + i) % logBufferSize)) ++
    ascii "\n[end]\n"

end ZynthexOS.Core
