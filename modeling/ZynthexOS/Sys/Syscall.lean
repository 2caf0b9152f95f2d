import ZynthexOS.Core.Log
import ZynthexOS.Lib.Memory
import ZynthexOS.Video.Vga

/-! `sys/syscall.c`. -/
namespace ZynthexOS.Sys
open ZynthexOS.Core Lib.Memory Text Video

/-- `SYS_WRITE`, `SYS_READ` and `SYS_TIME`. -/
def sysWrite : UInt32 := 1

def sysRead : UInt32 := 2

def sysTime : UInt32 := 3

/-- What a system call writes to. -/
structure Output where
  screen : Screen
  log : Log

/-- The loop of `SYS_WRITE` from `str[i]` on, with `n` more tests of `i < edx`. -/
def writeLoop (mem : Mem) (str : UInt32) : Nat → UInt32 → Screen → Screen
  | 0, _, s => s
  | n + 1, i, s =>
    let c := mem (str + i).toNat
    if c ≠ 0 then writeLoop mem str n (i + 1) (vgaPutchar s c) else s

/-- `syscall_handler`. -/
def syscallHandler (mem : Mem) (s : Output) (eax _ebx ecx edx : UInt32) : Output :=
  if eax = sysWrite then
    if ecx ≠ 0 ∧ edx ≠ 0 then { s with screen := writeLoop mem ecx edx.toNat 0 s.screen } else s
  else if eax = sysRead then s
  else if eax = sysTime then s
  else
    let log := logWrite s.log (some (ascii "syscall: unknown "))
    let log := logWriteHex log eax
    { s with log := logWrite log (some (ascii "\n")) }

end ZynthexOS.Sys
